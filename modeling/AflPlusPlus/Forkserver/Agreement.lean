import AflPlusPlus.Forkserver.Handshake

/-!
# Both sides agree at the end of the handshake

For every place of a party there is what it still has to send and what it still expects to read. The
invariant says, for both pipes, that what the reader expects is what is in the pipe followed by what
the writer has to send. From it follow that no read is cut short, that the sides never wait for
each other and, at the end, that nothing is left over.
-/

namespace AflPlusPlus.Forkserver
open Lib

/-! ### The dictionary -/

/-- The token loop finds the tokens of the rest of a dictionary. -/
theorem tokenLoop_append (tokens : List (List Byte))
    (htokens : ∀ t ∈ tokens, 1 ≤ t.length ∧ t.length ≤ 255) (front : List Byte) {fuel : ℕ}
    (hfuel : tokens.length ≤ fuel) :
    tokenLoop (front ++ tokens.flatMap fun t => BitVec.ofNat 8 t.length :: t) fuel front.length =
      tokens := by
  induction tokens generalizing front fuel with
  | nil =>
    cases fuel with
    | zero => rfl
    | succ fuel => simp [tokenLoop]
  | cons t ts ih =>
    rw [List.length_cons] at hfuel
    obtain ⟨fuel, rfl⟩ : ∃ k, fuel = k + 1 := ⟨fuel - 1, by omega⟩
    have ht := htokens t List.mem_cons_self
    have hlen : (BitVec.ofNat 8 t.length).toNat = t.length := by
      rw [BitVec.toNat_ofNat]
      omega
    have hrest := ih (fun u hu => htokens u (List.mem_cons_of_mem t hu))
      (front ++ (BitVec.ofNat 8 t.length :: t)) (by simpa using hfuel)
    have hget : (front ++ (BitVec.ofNat 8 t.length :: t ++
        ts.flatMap fun t => BitVec.ofNat 8 t.length :: t))[front.length]? =
        some (BitVec.ofNat 8 t.length) := by
      rw [List.getElem?_append_right (Nat.le_refl _), Nat.sub_self]
      rfl
    have hdrop : (front ++ (BitVec.ofNat 8 t.length :: t ++
        ts.flatMap fun t => BitVec.ofNat 8 t.length :: t)).drop (front.length + 1) =
        t ++ ts.flatMap fun t => BitVec.ofNat 8 t.length :: t := by
      rw [List.drop_append, List.drop_of_length_le (by omega), Nat.add_sub_cancel_left]
      rfl
    rw [List.flatMap_cons, tokenLoop, hget]
    simp only [hlen]
    rw [if_pos (by simp only [List.length_append, List.length_cons]; omega), hdrop, List.take_left]
    rw [List.append_assoc] at hrest
    have hoffset : front.length + (1 + t.length) =
        (front ++ (BitVec.ofNat 8 t.length :: t)).length := by
      rw [List.length_append, List.length_cons]
      omega
    rw [hoffset, hrest]

theorem Dictionary.length_tokens_le (d : Dictionary) : d.tokens.length ≤ d.bytes.length := by
  rw [bytes]
  induction d.tokens with
  | nil => exact Nat.le_refl _
  | cons t ts ih =>
    simp only [List.flatMap_cons, List.length_append, List.length_cons]
    omega

/-- Reading the dictionary calls `add_extra_func` with exactly its tokens, in their order. -/
theorem Dictionary.tokenLoop_bytes (d : Dictionary) :
    tokenLoop d.bytes d.bytes.length 0 = d.tokens :=
  tokenLoop_append d.tokens d.token_length [] d.length_tokens_le

/-- A dictionary that is not empty has a token and its length. -/
theorem Dictionary.two_le_length (d : Dictionary) (h : d.bytes ≠ []) : 2 ≤ d.bytes.length := by
  cases htokens : d.tokens with
  | nil =>
    rw [bytes, htokens] at h
    exact absurd rfl h
  | cons t ts =>
    have ht := (d.token_length t (by rw [htokens]; exact List.mem_cons_self)).1
    rw [bytes, htokens]
    simp only [List.flatMap_cons, List.length_append, List.length_cons]
    omega

/-! ### What is to be sent and to be read -/

section Streams

variable (c : TargetConfig)

/-- The dictionary as it is sent. -/
def dictPart : List Byte :=
  le32 (BitVec.ofNat 32 c.dictionary.bytes.length) ++ c.dictionary.bytes

/-- What follows the map size. -/
def tailPart : List Byte :=
  (if c.dictionary.bytes ≠ [] then dictPart c else []) ++ le32 version

/-- What the target still has to send at a place. -/
def toSend : TargetPc → List Byte
  | .sendVersion => le32 version ++ (le32 c.options ++ (le32 c.mapSize ++ tailPart c))
  | .recvReply => le32 c.options ++ (le32 c.mapSize ++ tailPart c)
  | .sendOptions => le32 c.options ++ (le32 c.mapSize ++ tailPart c)
  | .sendMapSize => le32 c.mapSize ++ tailPart c
  | .sendDictLen => dictPart c ++ le32 version
  | .sendDict offset => c.dictionary.bytes.drop offset ++ le32 version
  | .sendWelcome => le32 version
  | .connected => []
  | .exited => []

/-- What the fuzzer still expects to read at a place. -/
def toRead : FuzzerPc → List Byte
  | .recvHello => le32 version ++ (le32 c.options ++ (le32 c.mapSize ++ tailPart c))
  | .sendReply _ => le32 c.options ++ (le32 c.mapSize ++ tailPart c)
  | .recvOptions _ => le32 c.options ++ (le32 c.mapSize ++ tailPart c)
  | .recvMapSize _ _ => le32 c.mapSize ++ tailPart c
  | .recvDictSize _ => dictPart c ++ le32 version
  | .recvDict _ _ dict => c.dictionary.bytes.drop dict.length ++ le32 version
  | .recvFinal _ => le32 version
  | .up => []
  | .oldModel => []
  | .fatal => []

end Streams

/-- The reply, while the fuzzer has not sent it. -/
def replyToSend : FuzzerPc → List Byte
  | .recvHello => le32 (version ^^^ 0xffffffff)
  | .sendReply _ => le32 (version ^^^ 0xffffffff)
  | _ => []

/-- The reply, while the target has not read it. -/
def replyToRead : TargetPc → List Byte
  | .sendVersion => le32 (version ^^^ 0xffffffff)
  | .recvReply => le32 (version ^^^ 0xffffffff)
  | _ => []

/-! ### The invariant -/

/-- The fields of the fuzzer once the options are read. -/
def configured (c : TargetConfig) : Fsrv where
  mapSize := BitVec.ofNat 32 (roundUp64 c.mapSize.toNat)
  realMapSize := c.mapSize
  useShmemFuzz := c.sharedmemFuzzing
  useIjon := c.ijonEnabled
  extras := []

/-- The fields of the fuzzer once the dictionary is read. -/
def loaded (c : TargetConfig) (f : FuzzerConfig) : Fsrv :=
  { configured c with
    extras := if f.ignoreAutodict = false ∧ f.addExtraFunc = true then c.dictionary.tokens else [] }

def TargetOk (c : TargetConfig) : TargetPc → Prop
  | .sendDictLen => c.dictionary.bytes ≠ []
  | .sendDict offset => offset < c.dictionary.bytes.length
  | .exited => False
  | _ => True

/-- The local variables of the fuzzer are what the target sent. -/
def FuzzerOk (c : TargetConfig) (f : FuzzerConfig) (fsrv : Fsrv) : FuzzerPc → Prop
  | .recvHello => fsrv = (handshakeStart f).fsrv
  | .sendReply keep => keep = version ∧ fsrv = (handshakeStart f).fsrv
  | .recvOptions keep => keep = version ∧ fsrv = (handshakeStart f).fsrv
  | .recvMapSize keep options =>
    keep = version ∧ options = c.options ∧ fsrv = (handshakeStart f).fsrv
  | .recvDictSize keep => keep = version ∧ fsrv = configured c ∧ c.dictionary.bytes ≠ []
  | .recvDict keep dictSize dict =>
    keep = version ∧ fsrv = configured c ∧ dictSize = c.dictionary.bytes.length ∧
      dict = c.dictionary.bytes.take dict.length ∧ dict.length < c.dictionary.bytes.length
  | .recvFinal keep => keep = version ∧ fsrv = loaded c f
  | .up => fsrv = loaded c f
  | .oldModel => False
  | .fatal => False

structure HandshakeInv (c : TargetConfig) (f : FuzzerConfig) (s : Handshake) : Prop where
  st : toRead c s.fuzzer = s.st ++ toSend c s.target
  ctl : replyToRead s.target = s.ctl ++ replyToSend s.fuzzer
  target : TargetOk c s.target
  fuzzer : FuzzerOk c f s.fsrv s.fuzzer

theorem handshakeInv_start (c : TargetConfig) (f : FuzzerConfig) :
    HandshakeInv c f (handshakeStart f) where
  st := by rw [handshakeStart, toRead, toSend, List.nil_append]
  ctl := by rw [handshakeStart, replyToRead, replyToSend, List.nil_append]
  target := by simp only [handshakeStart, TargetOk]
  fuzzer := by simp only [handshakeStart, FuzzerOk]

/-- What both sides still have to do. -/
def handshakeWork (c : TargetConfig) (s : Handshake) : ℕ :=
  (toSend c s.target).length + (toRead c s.fuzzer).length + (replyToRead s.target).length +
    (replyToSend s.fuzzer).length

theorem Pipe.send_eq_some {cap : ℕ} {p p' : Pipe} {bs : List Byte}
    (h : Pipe.send cap p bs = some p') : p' = p ++ bs := by
  rw [Pipe.send, Option.ite_none_right_eq_some] at h
  exact (Option.some.inj h.2).symm

section Steps

variable {cap : ℕ} {c : TargetConfig} {f : FuzzerConfig} {s s' : Handshake}

/-! ### Steps of the target -/

/-- A write of the target moves bytes from what it has to send into the pipe. -/
theorem HandshakeInv.put (h : HandshakeInv c f s) (bs : List Byte) (next : TargetPc)
    (hsend : toSend c s.target = bs ++ toSend c next)
    (hreply : replyToRead next = replyToRead s.target) (hok : TargetOk c next) (hbs : bs ≠ [])
    (hput : (Pipe.send cap s.st bs).map (fun st => { s with target := next, st := st }) = some s') :
    HandshakeInv c f s' ∧ handshakeWork c s' < handshakeWork c s := by
  obtain ⟨st, hst, rfl⟩ := Option.map_eq_some_iff.mp hput
  obtain rfl := Pipe.send_eq_some hst
  have hpos : 0 < bs.length := List.length_pos_iff.mpr hbs
  refine ⟨⟨?_, hreply.trans h.ctl, hok, h.fuzzer⟩, ?_⟩
  · rw [h.st, hsend, List.append_assoc]
  · simp only [handshakeWork, hreply, hsend, List.length_append]
    omega

theorem length_replyToSend (pc : FuzzerPc) :
    replyToSend pc = le32 (version ^^^ 0xffffffff) ∨ replyToSend pc = [] := by
  cases pc with
  | recvHello => exact Or.inl (by rw [replyToSend])
  | sendReply keep => exact Or.inl (by rw [replyToSend])
  | _ => exact Or.inr rfl

/-- The target reads the whole reply and nothing else. -/
theorem HandshakeInv.reply (h : HandshakeInv c f s) (hpc : s.target = .recvReply)
    (hctl : s.ctl ≠ []) : s.ctl = le32 (version ^^^ 0xffffffff) ∧ replyToSend s.fuzzer = [] := by
  have hexpect := h.ctl
  rw [hpc, replyToRead] at hexpect
  rcases length_replyToSend s.fuzzer with hsend | hsend
  · rw [hsend] at hexpect
    have hlen := congrArg List.length hexpect
    rw [List.length_append, length_le32] at hlen
    exact absurd (List.length_eq_zero_iff.mp (by omega)) hctl
  · rw [hsend, List.append_nil] at hexpect
    exact ⟨hexpect.symm, hsend⟩

theorem Pipe.recv32_ne_nil {p : Pipe} {r : Option (BitVec 32) × Pipe}
    (h : Pipe.recv32 p = some r) : p ≠ [] := by
  rintro rfl
  cases h

theorem HandshakeInv.targetReply (h : HandshakeInv c f s) (hpc : s.target = .recvReply)
    (hstep : (Pipe.recv32 s.ctl).map (fun r => { s with
      ctl := r.2
      target := if r.1 = some (version ^^^ 0xffffffff) then .sendOptions else .exited }) =
        some s') :
    HandshakeInv c f s' ∧ handshakeWork c s' < handshakeWork c s := by
  obtain ⟨r, hr, rfl⟩ := Option.map_eq_some_iff.mp hstep
  obtain ⟨hctl, hsent⟩ := h.reply hpc (Pipe.recv32_ne_nil hr)
  have hread := Pipe.recv32_append (version ^^^ 0xffffffff) []
  rw [List.append_nil, ← hctl, hr] at hread
  obtain rfl := Option.some.inj hread
  have hexpect := h.ctl
  rw [hpc] at hexpect
  have hst := h.st
  rw [hpc] at hst
  refine ⟨⟨?_, ?_, ?_, h.fuzzer⟩, ?_⟩
  · simp only [if_true]
    rw [hst, toSend, toSend]
  · simp only [if_true]
    rw [hsent]
    rfl
  · simp only [if_true]
    trivial
  · have hlen : (replyToRead .recvReply).length = 4 := by rw [replyToRead, length_le32]
    have hlen' : (replyToRead .sendOptions).length = 0 := rfl
    have hsame : toSend c .sendOptions = toSend c .recvReply := by rw [toSend, toSend]
    simp only [handshakeWork, if_true, hpc]
    rw [hsame]
    omega

theorem HandshakeInv.targetDict (h : HandshakeInv c f s) {offset n : ℕ}
    (hpc : s.target = .sendDict offset)
    (hstep : (let len := c.dictionary.bytes.length - offset
      let ret := min n len
      if ret < 1 then none
      else (Pipe.send cap s.st ((c.dictionary.bytes.drop offset).take ret)).map fun st =>
        { s with
          target := if len - ret ≠ 0 then .sendDict (offset + ret) else .sendWelcome
          st := st }) = some s') :
    HandshakeInv c f s' ∧ handshakeWork c s' < handshakeWork c s := by
  have hoffset : offset < c.dictionary.bytes.length := by
    have hok := h.target
    rw [hpc] at hok
    exact hok
  simp only at hstep
  rw [Option.ite_none_left_eq_some] at hstep
  obtain ⟨hret, hput⟩ := hstep
  have hchunk : ((c.dictionary.bytes.drop offset).take
      (min n (c.dictionary.bytes.length - offset))) ≠ [] := by
    intro hnil
    have hlen := congrArg List.length hnil
    rw [List.length_take, List.length_drop, List.length_nil] at hlen
    omega
  have hsplit : c.dictionary.bytes.drop offset =
      (c.dictionary.bytes.drop offset).take (min n (c.dictionary.bytes.length - offset)) ++
        c.dictionary.bytes.drop (offset + min n (c.dictionary.bytes.length - offset)) := by
    rw [← List.drop_drop, List.take_append_drop]
  by_cases hmore :
      c.dictionary.bytes.length - offset - min n (c.dictionary.bytes.length - offset) ≠ 0
  · rw [if_pos hmore] at hput
    refine h.put _ (.sendDict (offset + min n (c.dictionary.bytes.length - offset))) ?_
      (by rw [hpc]; rfl) ?_ hchunk hput
    · rw [hpc, toSend, toSend, ← List.append_assoc, ← hsplit]
    · change offset + min n (c.dictionary.bytes.length - offset) < _
      omega
  · rw [if_neg hmore] at hput
    refine h.put _ .sendWelcome ?_ (by rw [hpc]; rfl) trivial hchunk hput
    rw [hpc, toSend, toSend]
    have hall : c.dictionary.bytes.drop
        (offset + min n (c.dictionary.bytes.length - offset)) = [] :=
      List.drop_of_length_le (by omega)
    rw [hall, List.append_nil] at hsplit
    rw [← hsplit]

theorem HandshakeInv.targetStep (h : HandshakeInv c f s) {n : ℕ}
    (hstep : targetStep cap c n s = some s') :
    HandshakeInv c f s' ∧ handshakeWork c s' < handshakeWork c s := by
  rw [Forkserver.targetStep] at hstep
  split at hstep
  case h_1 hpc =>
    exact h.put (le32 version) .recvReply (by rw [hpc, toSend, toSend]) (by rw [hpc]; rfl) trivial
      (le32_ne_nil _) hstep
  case h_2 hpc =>
    exact h.targetReply hpc hstep
  case h_3 hpc =>
    exact h.put (le32 c.options) .sendMapSize (by rw [hpc, toSend, toSend]) (by rw [hpc]; rfl)
      trivial (le32_ne_nil _) hstep
  case h_4 hpc =>
    by_cases hdict : c.dictionary.bytes ≠ []
    · rw [if_pos hdict] at hstep
      refine h.put (le32 c.mapSize) .sendDictLen ?_ (by rw [hpc]; rfl) hdict (le32_ne_nil _) hstep
      rw [hpc, toSend, toSend, tailPart, if_pos hdict]
    · rw [if_neg hdict] at hstep
      refine h.put (le32 c.mapSize) .sendWelcome ?_ (by rw [hpc]; rfl) trivial (le32_ne_nil _) hstep
      rw [hpc, toSend, toSend, tailPart, if_neg hdict, List.nil_append]
  case h_5 hpc =>
    have hdict : c.dictionary.bytes ≠ [] := by
      have hok := h.target
      rw [hpc] at hok
      exact hok
    refine h.put (le32 (BitVec.ofNat 32 c.dictionary.bytes.length)) (.sendDict 0) ?_
      (by rw [hpc]; rfl) (List.length_pos_iff.mpr hdict) (le32_ne_nil _) hstep
    rw [hpc, toSend, toSend, dictPart, List.drop_zero, List.append_assoc]
  case h_6 offset hpc =>
    exact h.targetDict hpc hstep
  case h_7 hpc =>
    exact h.put (le32 version) .connected (by rw [hpc, toSend, toSend, List.append_nil])
      (by rw [hpc]; rfl) trivial (le32_ne_nil _) hstep
  case h_8 => cases hstep
  case h_9 => cases hstep

/-! ### Reads of the fuzzer are never cut short -/

theorem length_tailPart (c : TargetConfig) :
    c.dictionary.bytes.length = 0 ∧ (tailPart c).length = 4 ∨
      0 < c.dictionary.bytes.length ∧ (tailPart c).length = c.dictionary.bytes.length + 8 := by
  rw [tailPart, List.length_append, length_le32]
  by_cases hdict : c.dictionary.bytes ≠ []
  · rw [if_pos hdict, dictPart, List.length_append, length_le32]
    exact Or.inr ⟨List.length_pos_iff.mpr hdict, by omega⟩
  · rw [if_neg hdict]
    exact Or.inl ⟨List.length_eq_zero_iff.mpr (not_not.mp hdict), rfl⟩

/-- The length of what the target has to send, for a dictionary of `d` bytes. -/
def sendLeft (tail d : ℕ) : TargetPc → ℕ
  | .sendVersion => tail + 12
  | .recvReply => tail + 8
  | .sendOptions => tail + 8
  | .sendMapSize => tail + 4
  | .sendDictLen => d + 8
  | .sendDict offset => d - offset + 4
  | .sendWelcome => 4
  | .connected => 0
  | .exited => 0

/-- The length of what the fuzzer expects, where it expects a number. -/
def readLeft (tail d : ℕ) : FuzzerPc → ℕ
  | .recvHello => tail + 12
  | .sendReply _ => tail + 8
  | .recvOptions _ => tail + 8
  | .recvMapSize _ _ => tail + 4
  | .recvDictSize _ => d + 8
  | .recvDict _ _ dict => d - dict.length + 4
  | .recvFinal _ => 4
  | .up => 0
  | .oldModel => 0
  | .fatal => 0

theorem length_toSend (c : TargetConfig) (pc : TargetPc) : (toSend c pc).length =
    sendLeft (tailPart c).length c.dictionary.bytes.length pc := by
  cases pc with
  | sendVersion => simp only [toSend, sendLeft, List.length_append, length_le32]; omega
  | recvReply => simp only [toSend, sendLeft, List.length_append, length_le32]; omega
  | sendOptions => simp only [toSend, sendLeft, List.length_append, length_le32]; omega
  | sendMapSize => simp only [toSend, sendLeft, List.length_append, length_le32]; omega
  | sendDictLen => simp only [toSend, dictPart, sendLeft, List.length_append, length_le32]; omega
  | sendDict offset =>
    simp only [toSend, sendLeft, List.length_append, List.length_drop, length_le32]
  | sendWelcome => simp only [toSend, sendLeft, length_le32]
  | connected => rfl
  | exited => rfl

theorem length_toRead (c : TargetConfig) (pc : FuzzerPc) : (toRead c pc).length =
    readLeft (tailPart c).length c.dictionary.bytes.length pc := by
  cases pc with
  | recvHello => simp only [toRead, readLeft, List.length_append, length_le32]; omega
  | sendReply keep => simp only [toRead, readLeft, List.length_append, length_le32]; omega
  | recvOptions keep => simp only [toRead, readLeft, List.length_append, length_le32]; omega
  | recvMapSize keep options => simp only [toRead, readLeft, List.length_append, length_le32]; omega
  | recvDictSize keep =>
    simp only [toRead, dictPart, readLeft, List.length_append, length_le32]; omega
  | recvDict keep size dict =>
    simp only [toRead, readLeft, List.length_append, List.length_drop, length_le32]
  | recvFinal keep => simp only [toRead, readLeft, length_le32]
  | up => rfl
  | oldModel => rfl
  | fatal => rfl

/-- Where the fuzzer expects a number, what is in the pipe is nothing or at least a number. -/
theorem HandshakeInv.aligned (h : HandshakeInv c f s)
    (hpc : ∀ keep size dict, s.fuzzer ≠ .recvDict keep size dict) (hst : s.st ≠ []) :
    4 ≤ s.st.length := by
  have hpos : 0 < s.st.length := List.length_pos_iff.mpr hst
  have hlen := congrArg List.length h.st
  have htarget := h.target
  have hfuzzer := h.fuzzer
  have htail := length_tailPart c
  rw [List.length_append, length_toRead, length_toSend] at hlen
  cases hd : s.fuzzer with
  | recvDict keep size dict => exact absurd hd (hpc keep size dict)
  | recvDictSize keep =>
    rw [hd] at hfuzzer hlen
    have hdict := List.length_pos_iff.mpr hfuzzer.2.2
    cases ht : s.target <;> rw [ht] at hlen <;> simp only [sendLeft, readLeft] at hlen <;> omega
  | _ =>
    rw [hd] at hlen
    cases ht : s.target <;> rw [ht] at hlen htarget <;>
      simp only [sendLeft, readLeft, TargetOk] at hlen htarget <;> omega

/-- A number the fuzzer expects is read whole, and it is the one the target sent. -/
theorem HandshakeInv.read32 (h : HandshakeInv c f s)
    (hpc : ∀ keep size dict, s.fuzzer ≠ .recvDict keep size dict) {x : BitVec 32}
    {rest : List Byte} (hread : toRead c s.fuzzer = le32 x ++ rest)
    {next : BitVec 32 → Handshake → Handshake} (hstep : s.read32 next = some s') :
    ∃ st, rest = st ++ toSend c s.target ∧ s' = next x { s with st := st } := by
  obtain ⟨r, hr, rfl⟩ := Option.map_eq_some_iff.mp hstep
  have hlen := h.aligned hpc (Pipe.recv32_ne_nil hr)
  have hexpect := h.st
  rw [hread] at hexpect
  obtain ⟨st, hst, hrest⟩ := Pipe.split_le32 hexpect hlen
  rw [hst, Pipe.recv32_append] at hr
  obtain rfl := Option.some.inj hr
  exact ⟨st, hrest, rfl⟩

/-- What the fuzzer sees in the options is what the target was started with. -/
theorem TargetConfig.options_spec (c : TargetConfig) :
    c.options &&& fsNewOptMapsize ≠ 0 ∧
      (c.options &&& fsNewOptShdmemFuzz ≠ 0 ↔ c.sharedmemFuzzing = true) ∧
      (c.options &&& fsOptIjon ≠ 0 ↔ c.ijonEnabled = true) ∧
      (c.options &&& fsNewOptAutodict ≠ 0 ↔ c.dictionary.bytes ≠ []) := by
  rw [options]
  by_cases hdict : c.dictionary.bytes ≠ []
  · rw [if_pos hdict]
    cases c.sharedmemFuzzing <;> cases c.ijonEnabled <;>
      exact ⟨by decide, by decide, by decide, iff_of_true (by decide) hdict⟩
  · rw [if_neg hdict]
    cases c.sharedmemFuzzing <;> cases c.ijonEnabled <;>
      exact ⟨by decide, by decide, by decide, iff_of_false (by decide) hdict⟩

/-- Rounding up in 32 bits is rounding up, unless the size is at the very end of the range. -/
theorem toNat_rounded (x : BitVec 32) (hx : roundUp64 x.toNat < 4294967296) :
    (if x % 64 ≠ 0 then ((x + 63) >>> 6) <<< 6 else x).toNat = roundUp64 x.toNat := by
  have h63 : (63 : BitVec 32).toNat = 63 := rfl
  have h64 : (64 : BitVec 32).toNat = 64 := rfl
  rw [roundUp64] at hx ⊢
  by_cases hmod : x % 64 = 0
  · have hnat := congrArg BitVec.toNat hmod
    rw [BitVec.toNat_umod, h64] at hnat
    rw [if_neg (not_not.mpr hmod)]
    change x.toNat % 64 = 0 at hnat
    omega
  · rw [if_pos hmod, BitVec.toNat_shiftLeft, BitVec.toNat_ushiftRight, BitVec.toNat_add, h63,
      Nat.shiftLeft_eq, Nat.shiftRight_eq_div_pow]
    have hnat : x.toNat % 64 ≠ 0 := fun h0 =>
      hmod (BitVec.eq_of_toNat_eq (by rw [BitVec.toNat_umod, h64, h0]; rfl))
    omega

/-- A map that is large enough takes the rounded size of the target. -/
theorem readMapSize_start (hcan : CanSatisfy f c) :
    (handshakeStart f).fsrv.readMapSize c.mapSize =
      some ⟨BitVec.ofNat 32 (roundUp64 c.mapSize.toNat),
      c.mapSize, false, false, []⟩ := by
  have hsize : (if f.mapSize = 0 then 65536 else f.mapSize).toNat =
      if f.mapSize = 0 then 65536 else f.mapSize.toNat := by
    split <;> rfl
  have hfit := hcan.mapSize
  rw [← hsize] at hfit
  have hlt : roundUp64 c.mapSize.toNat < 4294967296 := Nat.lt_of_le_of_lt hfit (BitVec.isLt _)
  have hround := toNat_rounded c.mapSize hlt
  have hle : ¬ (if c.mapSize % 64 ≠ 0 then ((c.mapSize + 63) >>> 6) <<< 6 else c.mapSize) >
      (if f.mapSize = 0 then 65536 else f.mapSize) := by
    rw [gt_iff_lt, BitVec.lt_def, hround]
    omega
  have heq : (if c.mapSize % 64 ≠ 0 then ((c.mapSize + 63) >>> 6) <<< 6 else c.mapSize) =
      BitVec.ofNat 32 (roundUp64 c.mapSize.toNat) := by
    rw [← hround, BitVec.ofNat_toNat, BitVec.setWidth_eq]
  rw [heq] at hle
  rw [Fsrv.readMapSize, handshakeStart]
  simp only [heq]
  rw [if_neg hle]

/-- The fields after the options. -/
theorem readFlags_options (hcan : CanSatisfy f c) :
    (⟨BitVec.ofNat 32 (roundUp64 c.mapSize.toNat), c.mapSize, false, false, []⟩ : Fsrv).readFlags f
      c.options = some (configured c) := by
  obtain ⟨-, hshmem, hijon, -⟩ := c.options_spec
  have hsupport : ¬ (c.options &&& fsNewOptShdmemFuzz ≠ 0 ∧ ¬ f.supportShmemFuzz = true) :=
    fun ⟨hopt, hno⟩ => hno (hcan.shmem (hshmem.mp hopt))
  rw [Fsrv.readFlags, if_neg hsupport, configured]
  simp only [hshmem, hijon]
  cases c.sharedmemFuzzing <;> cases c.ijonEnabled <;> rfl

/-- A step of the fuzzer that reads `bs` keeps the invariant, if the place and the fields it goes to
are right. -/
theorem HandshakeInv.got (h : HandshakeInv c f s) {bs st : List Byte} {next : FuzzerPc}
    {fsrv : Fsrv} (hbs : bs ≠ []) (hread : toRead c s.fuzzer = bs ++ toRead c next)
    (hst : toRead c next = st ++ toSend c s.target)
    (hreply : replyToSend next = replyToSend s.fuzzer) (hok : FuzzerOk c f fsrv next) :
    HandshakeInv c f { s with fuzzer := next, fsrv := fsrv, st := st } ∧
      handshakeWork c { s with fuzzer := next, fsrv := fsrv, st := st } < handshakeWork c s := by
  have hpos : 0 < bs.length := List.length_pos_iff.mpr hbs
  refine ⟨⟨hst, ?_, h.target, hok⟩, ?_⟩
  · rw [hreply]
    exact h.ctl
  · simp only [handshakeWork, hread, hreply, List.length_append]
    omega

theorem HandshakeInv.recvHello (h : HandshakeInv c f s) (hpc : s.fuzzer = .recvHello)
    (hstep : s.read32 (fun status s => { s with fuzzer := checkHello status }) = some s') :
    HandshakeInv c f s' ∧ handshakeWork c s' < handshakeWork c s := by
  have hread : toRead c s.fuzzer = le32 version ++ toRead c (.sendReply version) := by
    rw [hpc, toRead, toRead]
  obtain ⟨st, hst, rfl⟩ := h.read32 (by simp [hpc]) hread hstep
  have hcheck : checkHello version = .sendReply version := by decide
  have hok := h.fuzzer
  rw [hpc] at hok
  rw [hcheck]
  exact h.got (le32_ne_nil version) hread hst (by rw [hpc, replyToSend, replyToSend]) ⟨rfl, hok⟩

theorem HandshakeInv.sendReply (h : HandshakeInv c f s) {keep : BitVec 32}
    (hpc : s.fuzzer = .sendReply keep)
    (hstep : (Pipe.send cap s.ctl (le32 (keep ^^^ 0xffffffff))).map (fun ctl =>
      { s with fuzzer := .recvOptions keep, ctl := ctl }) = some s') :
    HandshakeInv c f s' ∧ handshakeWork c s' < handshakeWork c s := by
  obtain ⟨ctl, hctl, rfl⟩ := Option.map_eq_some_iff.mp hstep
  obtain rfl := Pipe.send_eq_some hctl
  have hok := h.fuzzer
  rw [hpc] at hok
  obtain ⟨rfl, hfsrv⟩ := hok
  have hexpect := h.ctl
  rw [hpc, replyToSend] at hexpect
  have hst := h.st
  rw [hpc] at hst
  refine ⟨⟨?_, ?_, h.target, ⟨rfl, hfsrv⟩⟩, ?_⟩
  · rw [← hst, toRead, toRead]
  · rw [hexpect]
    exact (List.append_nil _).symm
  · have hsent : (replyToSend (.sendReply version)).length = 4 := by rw [replyToSend, length_le32]
    have hnone : (replyToSend (.recvOptions version)).length = 0 := rfl
    have hsame : toRead c (.recvOptions version) = toRead c (.sendReply version) := by
      rw [toRead, toRead]
    simp only [handshakeWork, hpc]
    rw [hsame]
    omega

theorem HandshakeInv.recvOptions (h : HandshakeInv c f s) {keep : BitVec 32}
    (hpc : s.fuzzer = .recvOptions keep)
    (hstep : s.read32 (fun options s =>
      if options &&& fsNewOptMapsize ≠ 0 then { s with fuzzer := .recvMapSize keep options }
      else afterMapSize f keep options
        (some { s.fsrv with realMapSize := 65536, mapSize := 65536 }) s) = some s') :
    HandshakeInv c f s' ∧ handshakeWork c s' < handshakeWork c s := by
  have hread : toRead c s.fuzzer = le32 c.options ++ toRead c (.recvMapSize keep c.options) := by
    rw [hpc, toRead, toRead]
  obtain ⟨st, hst, rfl⟩ := h.read32 (by simp [hpc]) hread hstep
  have hok := h.fuzzer
  rw [hpc] at hok
  rw [if_pos c.options_spec.1]
  exact h.got (le32_ne_nil c.options) hread hst (by rw [hpc]; rfl) ⟨hok.1, rfl, hok.2⟩

theorem HandshakeInv.recvMapSize (hcan : CanSatisfy f c) (h : HandshakeInv c f s)
    {keep options : BitVec 32} (hpc : s.fuzzer = .recvMapSize keep options)
    (hstep : s.read32 (fun tmpMapSize s =>
      afterMapSize f keep options (s.fsrv.readMapSize tmpMapSize) s) = some s') :
    HandshakeInv c f s' ∧ handshakeWork c s' < handshakeWork c s := by
  have hok := h.fuzzer
  rw [hpc] at hok
  obtain ⟨hkeep, rfl, hfsrv⟩ := hok
  have hread : toRead c s.fuzzer = le32 c.mapSize ++ tailPart c := by rw [hpc, toRead]
  obtain ⟨st, hst, rfl⟩ := h.read32 (by simp [hpc]) hread hstep
  obtain ⟨-, -, -, hauto⟩ := c.options_spec
  have hfields : (s.fsrv.readMapSize c.mapSize).bind (fun fsrv => fsrv.readFlags f c.options) =
      some (configured c) := by
    rw [hfsrv, readMapSize_start hcan]
    exact readFlags_options hcan
  rw [afterMapSize, hfields]
  simp only
  by_cases hdict : c.dictionary.bytes ≠ []
  · have hnext : toRead c (.recvDictSize keep) = tailPart c := by
      rw [toRead, tailPart, if_pos hdict]
    rw [if_pos (hauto.mpr hdict)]
    exact h.got (le32_ne_nil c.mapSize) (by rw [hread, hnext]) (by rw [hnext, hst])
      (by rw [hpc]; rfl) ⟨hkeep, rfl, hdict⟩
  · have hnext : toRead c (.recvFinal keep) = tailPart c := by
      rw [toRead, tailPart, if_neg hdict, List.nil_append]
    have hnone : c.dictionary.tokens = [] := by
      have hle := c.dictionary.length_tokens_le
      rw [not_not.mp hdict] at hle
      exact List.length_eq_zero_iff.mp (Nat.le_zero.mp hle)
    have hloaded : loaded c f = configured c := by
      rw [loaded, hnone, ite_self]
      rfl
    rw [if_neg fun hopt => hdict (hauto.mp hopt)]
    exact h.got (le32_ne_nil c.mapSize) (by rw [hread, hnext]) (by rw [hnext, hst])
      (by rw [hpc]; rfl) ⟨hkeep, hloaded.symm⟩

theorem HandshakeInv.recvDictSize (h : HandshakeInv c f s) {keep : BitVec 32}
    (hpc : s.fuzzer = .recvDictSize keep)
    (hstep : s.read32 (fun dictSize s =>
      { s with fuzzer := if dictSize.toNat < 2 ∨ dictSize.toNat > 0xffffff then .fatal
        else .recvDict keep dictSize.toNat [] }) = some s') :
    HandshakeInv c f s' ∧ handshakeWork c s' < handshakeWork c s := by
  have hok := h.fuzzer
  rw [hpc] at hok
  obtain ⟨hkeep, hfsrv, hdict⟩ := hok
  have hread : toRead c s.fuzzer = le32 (BitVec.ofNat 32 c.dictionary.bytes.length) ++
      toRead c (.recvDict keep c.dictionary.bytes.length []) := by
    rw [hpc, toRead, toRead, dictPart, List.length_nil, List.drop_zero, List.append_assoc]
  obtain ⟨st, hst, rfl⟩ := h.read32 (by simp [hpc]) hread hstep
  have htwo := c.dictionary.two_le_length hdict
  have hle : c.dictionary.bytes.length ≤ 0xffffff := c.dictionary.size_le
  have hsize : (BitVec.ofNat 32 c.dictionary.bytes.length).toNat = c.dictionary.bytes.length := by
    rw [BitVec.toNat_ofNat]
    omega
  rw [hsize, if_neg (by omega)]
  exact h.got (le32_ne_nil _) hread hst (by rw [hpc]; rfl)
    ⟨hkeep, hfsrv, rfl, rfl, List.length_pos_iff.mpr hdict⟩

theorem HandshakeInv.recvDict (h : HandshakeInv c f s) {keep : BitVec 32} {dictSize n : ℕ}
    {dict : List Byte} (hpc : s.fuzzer = .recvDict keep dictSize dict)
    (hstep : (let rlen := min n (min s.st.length (dictSize - dict.length))
      if rlen < 1 then none
      else
        let dict := dict ++ s.st.take rlen
        let s := { s with st := s.st.drop rlen }
        if dict.length < dictSize then some { s with fuzzer := .recvDict keep dictSize dict }
        else some { s with fuzzer := .recvFinal keep, fsrv := s.fsrv.loadDict f dict }) = some s') :
    HandshakeInv c f s' ∧ handshakeWork c s' < handshakeWork c s := by
  have hok := h.fuzzer
  rw [hpc] at hok
  obtain ⟨hkeep, hfsrv, rfl, hdict, hlt⟩ := hok
  simp only at hstep
  obtain ⟨rlen, hrlen⟩ :
      ∃ k, k = min n (min s.st.length (c.dictionary.bytes.length - dict.length)) :=
    ⟨_, rfl⟩
  rw [← hrlen, Option.ite_none_left_eq_some] at hstep
  obtain ⟨hpos, hstep⟩ := hstep
  have hexpect := h.st
  rw [hpc, toRead] at hexpect
  obtain ⟨htake, hdrop⟩ := Pipe.split_take hexpect (show rlen ≤ s.st.length by omega)
    (show rlen ≤ (c.dictionary.bytes.drop dict.length).length by rw [List.length_drop]; omega)
  have hne : s.st.take rlen ≠ [] := by
    intro hnil
    have hlen := congrArg List.length hnil
    rw [List.length_take, List.length_nil] at hlen
    omega
  have hlength : (dict ++ s.st.take rlen).length = dict.length + rlen := by
    rw [List.length_append, List.length_take]
    omega
  have hserved : dict ++ s.st.take rlen = c.dictionary.bytes.take (dict.length + rlen) := by
    rw [htake, List.take_add]
    exact congrArg (· ++ _) hdict
  have hread : toRead c s.fuzzer =
      s.st.take rlen ++ (c.dictionary.bytes.drop (dict.length + rlen) ++ le32 version) := by
    rw [hpc, toRead, htake, ← List.append_assoc, ← List.drop_drop, List.take_append_drop]
  rw [List.drop_drop] at hdrop
  by_cases hmore : (dict ++ s.st.take rlen).length < c.dictionary.bytes.length
  · rw [if_pos hmore] at hstep
    obtain rfl := Option.some.inj hstep
    have hnext : toRead c (.recvDict keep c.dictionary.bytes.length (dict ++ s.st.take rlen)) =
        c.dictionary.bytes.drop (dict.length + rlen) ++ le32 version := by
      rw [toRead, hlength]
    exact h.got hne (by rw [hread, hnext]) (by rw [hnext, hdrop]) (by rw [hpc]; rfl)
      ⟨hkeep, hfsrv, rfl, by rw [hlength, ← hserved], hmore⟩
  · rw [if_neg hmore] at hstep
    obtain rfl := Option.some.inj hstep
    have hall : dict.length + rlen = c.dictionary.bytes.length := by omega
    have hnext : toRead c (.recvFinal keep) =
        c.dictionary.bytes.drop (dict.length + rlen) ++ le32 version := by
      rw [toRead, hall, List.drop_length, List.nil_append]
    have hwhole : dict ++ s.st.take rlen = c.dictionary.bytes := by
      rw [hserved, hall, List.take_length]
    refine h.got hne (by rw [hread, hnext]) (by rw [hnext, hdrop]) (by rw [hpc]; rfl) ⟨hkeep, ?_⟩
    rw [hwhole, hfsrv, Fsrv.loadDict, c.dictionary.tokenLoop_bytes, loaded]
    cases f.ignoreAutodict <;> cases f.addExtraFunc <;> rfl

theorem HandshakeInv.recvFinal (h : HandshakeInv c f s) {keep : BitVec 32}
    (hpc : s.fuzzer = .recvFinal keep)
    (hstep : s.read32 (fun status2 s =>
      let expectedFlags := if s.fsrv.useIjon then fsOptIjon else 0
      { s with fuzzer := if status2 &&& ~~~ expectedFlags ≠ keep then .fatal else .up }) =
        some s') :
    HandshakeInv c f s' ∧ handshakeWork c s' < handshakeWork c s := by
  have hok := h.fuzzer
  rw [hpc] at hok
  obtain ⟨rfl, hfsrv⟩ := hok
  have hread : toRead c s.fuzzer = le32 version ++ toRead c .up := by
    rw [hpc, toRead, toRead, List.append_nil]
  obtain ⟨st, hst, rfl⟩ := h.read32 (by simp [hpc]) hread hstep
  have hmask : ¬ version &&& ~~~ (if s.fsrv.useIjon = true then fsOptIjon else 0) ≠ version := by
    split <;> decide
  simp only [if_neg hmask]
  exact h.got (le32_ne_nil _) hread hst (by rw [hpc]; rfl) hfsrv

theorem HandshakeInv.fuzzerStep (hcan : CanSatisfy f c) (h : HandshakeInv c f s) {n : ℕ}
    (hstep : fuzzerStep cap f n s = some s') :
    HandshakeInv c f s' ∧ handshakeWork c s' < handshakeWork c s := by
  rw [Forkserver.fuzzerStep] at hstep
  split at hstep
  case h_1 hpc => exact h.recvHello hpc hstep
  case h_2 keep hpc => exact h.sendReply hpc hstep
  case h_3 keep hpc => exact h.recvOptions hpc hstep
  case h_4 keep options hpc => exact h.recvMapSize hcan hpc hstep
  case h_5 keep hpc => exact h.recvDictSize hpc hstep
  case h_6 keep dictSize dict hpc => exact h.recvDict hpc hstep
  case h_7 keep hpc => exact h.recvFinal hpc hstep
  case h_8 => cases hstep
  case h_9 => cases hstep
  case h_10 => cases hstep

theorem HandshakeInv.step (hcan : CanSatisfy f c) (h : HandshakeInv c f s) {a : Party × ℕ}
    (hstep : handshakeStep cap c f s a = some s') :
    HandshakeInv c f s' ∧ handshakeWork c s' < handshakeWork c s := by
  rw [handshakeStep] at hstep
  split at hstep
  · exact h.targetStep hstep
  · exact h.fuzzerStep hcan hstep

/-! ### Nobody waits for ever -/

theorem Handshake.read32_ne_none (hst : s.st ≠ []) (next : BitVec 32 → Handshake → Handshake) :
    s.read32 next ≠ none := by
  rw [Handshake.read32, ne_eq, Option.map_eq_none_iff, Pipe.recv32, if_neg hst]
  split <;> exact Option.some_ne_none _

theorem Pipe.send_ne_none {p : Pipe} {bs : List Byte} (hlen : p.length + bs.length ≤ cap) :
    Pipe.send cap p bs ≠ none := by
  rw [Pipe.send, if_pos hlen]
  exact Option.some_ne_none _

/-- The fuzzer only stops to send its reply, to wait for bytes or at the end. -/
theorem HandshakeInv.fuzzer_stuck (hcap : 4 ≤ cap) (h : HandshakeInv c f s)
    (hstuck : Forkserver.fuzzerStep cap f 1 s = none) : s.st = [] ∨ s.fuzzer = .up := by
  by_contra hne
  obtain ⟨hst, hup⟩ := not_or.mp hne
  have hpos : 0 < s.st.length := List.length_pos_iff.mpr hst
  have hok := h.fuzzer
  rw [Forkserver.fuzzerStep] at hstuck
  split at hstuck
  case h_2 keep hpc =>
    -- the reply of the fuzzer is all that ever goes into the control pipe
    have hctl := congrArg List.length h.ctl
    have hread : (replyToRead s.target).length ≤ 4 := by
      cases s.target <;> simp only [replyToRead, length_le32, List.length_nil] <;> omega
    rw [hpc, replyToSend, List.length_append, length_le32] at hctl
    rw [Option.map_eq_none_iff] at hstuck
    exact Pipe.send_ne_none (by rw [length_le32]; omega) hstuck
  case h_6 keep dictSize dict hpc =>
    rw [hpc] at hok
    obtain ⟨-, -, rfl, -, hlt⟩ := hok
    simp only at hstuck
    rw [if_neg (by omega)] at hstuck
    split at hstuck <;> exact Option.some_ne_none _ hstuck
  case h_8 hpc => exact hup hpc
  case h_9 hpc => rw [hpc] at hok; exact hok
  case h_10 hpc => rw [hpc] at hok; exact hok
  all_goals exact Handshake.read32_ne_none hst _ hstuck

/-- The target only stops to wait for the reply or for room in the pipe, or at the end. -/
theorem HandshakeInv.target_stuck (hcap : 4 ≤ cap) (h : HandshakeInv c f s) (hst : s.st = [])
    (hstuck : Forkserver.targetStep cap c 1 s = none) :
    s.target = .recvReply ∧ s.ctl = [] ∨ s.target = .connected := by
  have hok := h.target
  have hput : ∀ bs : List Byte, bs.length ≤ 4 → Pipe.send cap s.st bs ≠ none := by
    intro bs hbs
    refine Pipe.send_ne_none ?_
    rw [hst, List.length_nil]
    omega
  rw [Forkserver.targetStep] at hstuck
  split at hstuck
  case h_2 hpc =>
    refine Or.inl ⟨hpc, ?_⟩
    by_contra hctl
    rw [Option.map_eq_none_iff, Pipe.recv32, if_neg hctl] at hstuck
    split at hstuck <;> exact Option.some_ne_none _ hstuck
  case h_6 offset hpc =>
    rw [hpc] at hok
    have hlt : offset < c.dictionary.bytes.length := hok
    simp only at hstuck
    rw [if_neg (by omega), Option.map_eq_none_iff] at hstuck
    refine absurd hstuck (hput _ ?_)
    rw [List.length_take]
    omega
  case h_8 hpc => exact Or.inr hpc
  case h_9 hpc => rw [hpc] at hok; exact hok.elim
  all_goals
    rw [Option.map_eq_none_iff] at hstuck
    exact absurd hstuck (hput _ (Nat.le_of_eq (length_le32 _)))

/-- Somebody can make a step, or the handshake is over. -/
theorem HandshakeInv.progress (hcap : 4 ≤ cap) (h : HandshakeInv c f s)
    (hstuck : ∀ a, handshakeStep cap c f s a = none) :
    s.target = .connected ∧ s.fuzzer = .up ∧ s.st = [] := by
  have hfuzzer := h.fuzzer_stuck hcap (hstuck (.fuzzer, 1))
  have hlen := congrArg List.length h.st
  rw [List.length_append, length_toRead, length_toSend] at hlen
  have hst : s.st = [] := by
    rcases hfuzzer with hst | hup
    · exact hst
    · rw [hup, readLeft] at hlen
      exact List.length_eq_zero_iff.mp (by omega)
  rw [hst, List.length_nil, Nat.zero_add] at hlen
  rcases h.target_stuck hcap hst (hstuck (.target, 1)) with ⟨htarget, hctl⟩ | htarget
  · -- the reply is not sent yet, but the fuzzer has the hello message
    have hexpect := congrArg List.length h.ctl
    rw [htarget, hctl, List.nil_append, replyToRead, length_le32] at hexpect
    rw [htarget, sendLeft] at hlen
    have hsend := hstuck (.fuzzer, 1)
    cases hpc : s.fuzzer with
    | recvHello =>
      rw [hpc, readLeft] at hlen
      omega
    | sendReply keep =>
      rw [handshakeStep, Forkserver.fuzzerStep] at hsend
      simp only [hpc, hctl, Option.map_eq_none_iff] at hsend
      exact absurd hsend (Pipe.send_ne_none (by rw [length_le32, List.length_nil]; omega))
    | _ =>
      rw [hpc] at hexpect
      exact absurd hexpect (show ¬ 4 = 0 by decide)
  · refine ⟨htarget, ?_, hst⟩
    rw [htarget, sendLeft] at hlen
    have hok := h.fuzzer
    cases hpc : s.fuzzer with
    | up => rfl
    | oldModel => rw [hpc] at hok; exact hok.elim
    | fatal => rw [hpc] at hok; exact hok.elim
    | _ =>
      rw [hpc] at hlen
      simp only [readLeft] at hlen
      omega

end Steps

/-- Where nobody can make a step any more, both sides agree. -/
theorem HandshakeInv.agreed {cap : ℕ} (hcap : 4 ≤ cap) {c : TargetConfig} {f : FuzzerConfig}
    (hcan : CanSatisfy f c) {s : Handshake} (hinv : HandshakeInv c f s)
    (hstuck : ∀ a, handshakeStep cap c f s a = none) : Agreed c f s := by
  obtain ⟨htarget, hfuzzer, hst⟩ := hinv.progress hcap hstuck
  have hctl := hinv.ctl
  rw [htarget, hfuzzer] at hctl
  have hfsrv := hinv.fuzzer
  rw [hfuzzer] at hfsrv
  have hloaded : s.fsrv = loaded c f := hfsrv
  have hround : roundUp64 c.mapSize.toNat < 4294967296 := by
    have hfit := hcan.mapSize
    have hlt := f.mapSize.isLt
    split at hfit <;> omega
  refine ⟨htarget, hfuzzer, ?_, ?_, ?_, ?_, ?_, hst, ?_⟩
  · rw [hloaded]
    rfl
  · rw [hloaded]
    exact Nat.mod_eq_of_lt hround
  · rw [hloaded]
    rfl
  · rw [hloaded]
    rfl
  · rw [hloaded]
    rfl
  · exact (List.append_eq_nil_iff.mp hctl.symm).1

/-- For every target the fuzzer can satisfy and every way the two sides take turns and the pipes
split the dictionary: the handshake ends, and whenever it ends, it has brought both sides to
agree. -/
theorem handshake_agrees (cap : ℕ) (hcap : 4 ≤ cap) (c : TargetConfig) (f : FuzzerConfig)
    (hcan : CanSatisfy f c) :
    ¬ RunsForever (handshakeStep cap c f) (fun _ _ => True) (handshakeStart f) ∧
      (∃ s, Reaches (handshakeStep cap c f) (fun _ _ => True) (handshakeStart f) s ∧
        Agreed c f s) ∧
      ∀ s, Reaches (handshakeStep cap c f) (fun _ _ => True) (handshakeStart f) s →
        (∀ a, handshakeStep cap c f s a = none) → Agreed c f s := by
  have hstep : ∀ u a v, HandshakeInv c f u → True → handshakeStep cap c f u a = some v →
      HandshakeInv c f v ∧ handshakeWork c v < handshakeWork c u :=
    fun u a v hu _ hstep => hu.step hcan hstep
  have hinv : ∀ s, Reaches (handshakeStep cap c f) (fun _ _ => True) (handshakeStart f) s →
      HandshakeInv c f s := fun s hs =>
    hs.invariant (handshakeInv_start c f) fun u a v hu hok h => (hstep u a v hu hok h).1
  obtain ⟨t, ht, hstuck⟩ := exists_stuck (handshakeWork c) (handshakeInv_start c f) hstep
  exact ⟨not_runsForever (handshakeWork c) (handshakeInv_start c f) hstep,
    ⟨t, ht, (hinv t ht).agreed hcap hcan fun a => hstuck a trivial⟩,
    fun s hs hnone => (hinv s hs).agreed hcap hcan hnone⟩

/-- A dictionary of two tokens. -/
def smallDictionary : Dictionary where
  tokens := [[65], [66, 67]]
  token_length := by decide
  size_le := by decide

/-- A target that uses every option. -/
def fullTarget : TargetConfig := ⟨100, true, true, smallDictionary⟩

/-- A fuzzer with the default map that takes the tokens. -/
def defaultFuzzer : FuzzerConfig := ⟨0, true, false, true⟩

/-- With all options, the fuzzer ends up with a map of 128 bytes and both tokens. -/
theorem full_handshake_agrees :
    ∃ s, Reaches (handshakeStep 65536 fullTarget defaultFuzzer) (fun _ _ => True)
        (handshakeStart defaultFuzzer) s ∧
      s.fsrv.mapSize.toNat = 128 ∧ s.fsrv.extras = [[65], [66, 67]] := by
  obtain ⟨-, ⟨s, hs, hagreed⟩, -⟩ := handshake_agrees 65536 (by decide) fullTarget defaultFuzzer
    ⟨by decide, fun _ => rfl⟩
  exact ⟨s, hs, hagreed.mapSize.trans (by decide), hagreed.extras.trans (by decide)⟩

end AflPlusPlus.Forkserver
