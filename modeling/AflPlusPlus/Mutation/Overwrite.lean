import AflPlusPlus.Lib.Qsort
import AflPlusPlus.Mutation.StageRuns
import AflPlusPlus.Mutation.WriteTestcase

/-!
# Tokens over the input, and the buffer after a stage

The stages that write the tokens of a dictionary over the bytes of the input. At one position the
tokens are written one over the other, and the buffer is put back once, with the length of the last
one: this relies on the tokens being sorted by their lengths.

All stages up to here patch the buffer in place, and each puts it back. They rely on an execution
leaving the buffer alone, which the `post_process` function of a custom mutator need not do.
-/

namespace AflPlusPlus.Mutation
open Lib Trials

def useAutoExtras : ℕ := 4096

/-- What the stages read of the fuzzer: the tokens of the user, of which not more than
`max_det_extras` are to be used at a position, and those that were found on the way. -/
structure Tokens where
  extras : List (List Byte)
  maxDetExtras : ℕ
  aExtras : List (List Byte)

/-- A token in memory. -/
def tokenBytes (data : List Byte) : Bytes := fun b => data.getD b 0

/-- `memcpy(m + i, data, len)`. -/
def putToken (i : ℕ) (data : List Byte) (m : Bytes) : Bytes :=
  copyBlock m i (tokenBytes data) 0 data.length

/-- `!memcmp(data, m + i, len)`. -/
def TokenAt (m : Bytes) (i : ℕ) (data : List Byte) : Prop :=
  contents (fun b => m (i + b)) data.length = data

instance (m : Bytes) (i : ℕ) (data : List Byte) : Decidable (TokenAt m i data) :=
  inferInstanceAs (Decidable (_ = _))

/-- The loop over the tokens at position `i`, from token `j` on and with the variable `last_len`,
and the restore behind it. `drop` says which tokens are skipped by a draw. -/
def overwriteTokens (inBuf : Bytes) (len i : ℕ) (drop : ℕ → Bool) :
    ℕ → ℕ → List (List Byte) → Stage
  | _, lastLen, [] => change fun out => copyBlock out i inBuf i lastLen
  | j, lastLen, data :: rest => do
    let s ← get
    if drop j ∨ data.length > len - i ∨ TokenAt s.work i data then
      overwriteTokens inBuf len i drop (j + 1) lastLen rest
    else
      change (putToken i data)
      attempt
      overwriteTokens inBuf len i drop (j + 1) data.length rest

/-- The first `n` positions of an overwriting stage. -/
def overwriteWith (eff : ℕ → Bool) (n : ℕ) (inBuf : Bytes) (len : ℕ) (drop : ℕ → ℕ → Bool)
    (tokens : List (List Byte)) : Stage :=
  onlyIf (tokens ≠ []) (walk eff n fun i => overwriteTokens inBuf len i (drop i) 0 0 tokens)

/-- "user extras (over)"; `rnd i j` is what `rand_below` returns for token `j` at position `i`. -/
def userExtrasOver (afl : Tokens) (rnd : ℕ → ℕ → ℕ) (eff : ℕ → Bool) (n : ℕ) (inBuf : Bytes)
    (len : ℕ) : Stage :=
  overwriteWith eff n inBuf len
    (fun i j => afl.extras.length > afl.maxDetExtras ∧ rnd i j ≥ afl.maxDetExtras) afl.extras

/-- "auto extras (over)". -/
def autoExtrasOver (afl : Tokens) (eff : ℕ → Bool) (n : ℕ) (inBuf : Bytes) (len : ℕ) : Stage :=
  overwriteWith eff n inBuf len (fun _ _ => false) (afl.aExtras.take useAutoExtras)

/-- The first `k` positions of the walking bits. -/
def bitflipSteps (eff : ℕ → Bool) (k n : ℕ) : Stage :=
  (List.range k).forM fun stageCur =>
    onlyIf (eff (stageCur >>> 3) = true) do
      change (flipBits n stageCur)
      attempt
      change (flipBits n stageCur)

theorem bitflip_eq_steps (eff : ℕ → Bool) (len n : ℕ) :
    bitflip eff len n = bitflipSteps eff ((len <<< 3) - (n - 1)) n := rfl

/-- The stages on an input of `len` bytes, each up to some position: `is_det_timeout`, which is
asked before a position is touched, may leave a stage early. -/
inductive InPlaceStage (afl : Tokens) (eff : ℕ → Bool) (inBuf : Bytes) (len : ℕ) : Stage → Prop
  | bitflip {k n : ℕ} : n = 1 ∨ n = 2 ∨ n = 4 → k ≤ (len <<< 3) - (n - 1) →
      InPlaceStage afl eff inBuf len (bitflipSteps eff k n)
  | byteflip {w n : ℕ} : w = 8 ∨ w = 16 ∨ w = 32 → n ≤ len - (w / 8 - 1) →
      InPlaceStage afl eff inBuf len (byteflip w eff n)
  | arith8 {n : ℕ} : n ≤ len → InPlaceStage afl eff inBuf len (arith8 eff n)
  | arith16 {n : ℕ} : n ≤ len - 1 → InPlaceStage afl eff inBuf len (arith16 eff n)
  | arith32 {n : ℕ} : n ≤ len - 3 → InPlaceStage afl eff inBuf len (arith32 eff n)
  | interest8 {n : ℕ} : n ≤ len → InPlaceStage afl eff inBuf len (interest8 eff n)
  | interest16 {n : ℕ} : n ≤ len - 1 → InPlaceStage afl eff inBuf len (interest16 eff n)
  | interest32 {n : ℕ} : n ≤ len - 3 → InPlaceStage afl eff inBuf len (interest32 eff n)
  | userExtras {n : ℕ} (rnd : ℕ → ℕ → ℕ) : n ≤ len →
      InPlaceStage afl eff inBuf len (userExtrasOver afl rnd eff n inBuf len)
  | autoExtras {n : ℕ} : n ≤ len →
      InPlaceStage afl eff inBuf len (autoExtrasOver afl eff n inBuf len)

/-- The input with one of the tokens over its bytes from `i` on. -/
def Overwritten (inBuf : Bytes) (len : ℕ) (tokens : List (List Byte)) (x : Bytes) : Prop :=
  ∃ i, ∃ data ∈ tokens, i + data.length ≤ len ∧ x = putToken i data inBuf

/-! ### Sorting -/

def SortedByLength (tokens : List (List Byte)) : Prop :=
  tokens.Pairwise fun a b => a.length ≤ b.length

/-- `compare_extras_len`: the difference of two `u32`, as an `int`. -/
def compareExtrasLen (e1 e2 : List Byte) : ℤ :=
  (BitVec.ofNat 32 e1.length - BitVec.ofNat 32 e2.length).toInt

/-- The dictionary before and after `extras_check_and_sort`. -/
def ExtrasCheckAndSort (extras sorted : List (List Byte)) : Prop :=
  if extras = [] then sorted = extras else QsortCall compareExtrasLen extras sorted

theorem compareExtrasLen_eq {a b : List Byte} (ha : a.length < 2 ^ 31) (hb : b.length < 2 ^ 31) :
    compareExtrasLen a b = (a.length : ℤ) - b.length := by
  have htoNat : ∀ n, n < 2 ^ 31 → (BitVec.ofNat 32 n).toNat = n := fun n hn =>
    Nat.mod_eq_of_lt (by omega)
  rw [compareExtrasLen, toInt_sub_of_near, htoNat _ ha, htoNat _ hb]
  all_goals
    rw [htoNat _ ha, htoNat _ hb]
    omega

theorem sortedByLength_of_qsortCall {extras sorted : List (List Byte)}
    (hlen : ∀ data ∈ extras, data.length < 2 ^ 31) (h : QsortCall compareExtrasLen extras sorted) :
    SortedByLength sorted :=
  (h.ordered_of_key fun a ha b hb => compareExtrasLen_eq (hlen a ha) (hlen b hb)).imp
    Int.ofNat_le.mp

theorem sortedByLength_of_extrasCheckAndSort {extras sorted : List (List Byte)}
    (hlen : ∀ data ∈ extras, data.length < 2 ^ 31) (h : ExtrasCheckAndSort extras sorted) :
    SortedByLength sorted := by
  unfold ExtrasCheckAndSort at h
  split at h
  · rename_i hnil
    rw [h, hnil]
    exact .nil
  · exact sortedByLength_of_qsortCall hlen h

/-! ### One token over the other -/

section Tokens

variable {m : Bytes} {i len : ℕ} {a b : List Byte}

theorem putToken_nil (i : ℕ) (m : Bytes) : putToken i [] m = m := by
  funext p
  exact if_neg fun h => absurd h.2 (Nat.not_lt.mpr h.1)

/-- A token covers a shorter one. -/
theorem putToken_putToken (h : a.length ≤ b.length) :
    putToken i b (putToken i a m) = putToken i b m := by
  funext p
  rw [putToken, putToken, putToken, copyBlock, copyBlock, copyBlock]
  split
  · rfl
  · exact if_neg (by omega)

theorem restore_putToken (i : ℕ) (a : List Byte) (m : Bytes) :
    copyBlock (putToken i a m) i m i a.length = m := by
  funext p
  rw [putToken, copyBlock, copyBlock]
  split
  · congr 1
    omega
  · rfl

/-- The tokens at one position, where `last` was the last one written. -/
theorem triesOnly_overwriteTokens (hi : i < len) (drop : ℕ → Bool) {rest : List (List Byte)}
    (hsorted : SortedByLength (a :: rest)) (j : ℕ) :
    TriesOnly (· = putToken i a m) (overwriteTokens m len i drop j a.length rest) (· = m) fun x =>
      ∃ data ∈ rest, i + data.length ≤ len ∧ x = putToken i data m := by
  induction rest generalizing a j with
  | nil =>
    have hrestore : Tries (· = putToken i a m) (change fun out => copyBlock out i m i a.length)
        (· = m) fun _ => False := by
      refine Tries.change ?_
      rintro x rfl
      exact restore_putToken i a m
    exact hrestore.only.mono (fun _ hx => hx) fun _ hx => hx.elim
  | cons data rest ih =>
    obtain ⟨hfirst, hrest⟩ := List.pairwise_cons.mp hsorted
    refine TriesOnly.read (f := id) (b := putToken i a m) (k := fun out =>
      if drop j ∨ data.length > len - i ∨ TokenAt out i data then
        overwriteTokens m len i drop (j + 1) a.length rest
      else do
        change (putToken i data)
        attempt
        overwriteTokens m len i drop (j + 1) data.length rest) (fun _ hx => hx) ?_
    split
    · -- skipped: the last token is still the one before
      have hskip : SortedByLength (a :: rest) := List.pairwise_cons.mpr
        ⟨fun b hb => hfirst b (List.mem_cons_of_mem _ hb), (List.pairwise_cons.mp hrest).2⟩
      exact (ih hskip (j + 1)).mono (fun _ hx => hx) fun _ ⟨b, hb, hx⟩ =>
        ⟨b, List.mem_cons_of_mem _ hb, hx⟩
    · rename_i hgo
      rw [not_or, not_or] at hgo
      have hfit : i + data.length ≤ len := by omega
      have hput : Tries (· = putToken i a m) (change (putToken i data)) (· = putToken i data m)
          fun _ => False := by
        refine Tries.change ?_
        rintro x rfl
        exact putToken_putToken (hfirst data List.mem_cons_self)
      refine (hput.only.mono (fun _ hx => hx) fun _ hx => hx.elim).bind
        (((Tries.attempt (putToken i data m)).only.mono (fun _ hx => hx) fun x hx =>
          ⟨data, List.mem_cons_self, hfit, hx⟩).bind ?_)
      exact (ih hrest (j + 1)).mono (fun _ hx => hx) fun _ ⟨b, hb, hx⟩ =>
        ⟨b, List.mem_cons_of_mem _ hb, hx⟩

end Tokens

/-! ### The stages -/

section Stages

variable {eff : ℕ → Bool} {m : Bytes} {len n : ℕ} {afl : Tokens}

theorem triesOnly_overwriteWith (hn : n ≤ len) (drop : ℕ → ℕ → Bool) {tokens : List (List Byte)}
    (hsorted : SortedByLength tokens) :
    TriesOnly (· = m) (overwriteWith eff n m len drop tokens) (· = m)
      (Overwritten m len tokens) := by
  refine TriesOnly.onlyIf _ fun _ => TriesOnly.forM fun i hi => TriesOnly.onlyIf _ fun _ => ?_
  have hi' : i < len := Nat.lt_of_lt_of_le (List.mem_range.mp hi) hn
  have hstart : SortedByLength ([] :: tokens) :=
    List.pairwise_cons.mpr ⟨fun _ _ => Nat.zero_le _, hsorted⟩
  have hall := triesOnly_overwriteTokens (m := m) hi' (drop i) hstart 0
  rw [putToken_nil] at hall
  exact hall.mono (fun _ hx => hx) fun x ⟨data, hdata, hfit, hx⟩ => ⟨i, data, hdata, hfit, hx⟩

theorem tries_bitflipSteps (k n : ℕ) :
    Tries (· = m) (bitflipSteps eff k n) (· = m) fun x =>
      ∃ cur ∈ List.range k, eff (cur >>> 3) = true ∧ x = flipBits n cur m :=
  Tries.forM fun cur _ => Tries.onlyIf (P := (· = m)) (eff (cur >>> 3) = true) fun _ =>
    Tries.around rfl (flipBits_flipBits n cur m)

/-- One stage. -/
theorem InPlaceStage.restore {stage : Stage} (hextras : SortedByLength afl.extras)
    (hauto : SortedByLength (afl.aExtras.take useAutoExtras))
    (h : InPlaceStage afl eff m len stage) : ∃ Q, TriesOnly (· = m) stage (· = m) Q := by
  cases h with
  | bitflip _ _ => exact ⟨_, (tries_bitflipSteps _ _).only⟩
  | byteflip hw _ =>
    refine ⟨_, (tries_byteflip ?_).only⟩
    rcases hw with rfl | rfl | rfl <;> decide
  | arith8 _ => exact ⟨_, tries_arith8.only⟩
  | arith16 _ => exact ⟨_, (tries_arithWords (by decide) _ _ _ _).only⟩
  | arith32 _ => exact ⟨_, (tries_arithWords (by decide) _ _ _ _).only⟩
  | interest8 _ => exact ⟨_, tries_interest8.only⟩
  | interest16 _ => exact ⟨_, (tries_interestWords (by decide) _ _).only⟩
  | interest32 _ => exact ⟨_, (tries_interestWords (by decide) _ _).only⟩
  | userExtras rnd hn => exact ⟨_, triesOnly_overwriteWith hn _ hextras⟩
  | autoExtras hn => exact ⟨_, triesOnly_overwriteWith hn _ hauto⟩

/-- A run of stages. -/
theorem run_restore (hextras : SortedByLength afl.extras)
    (hauto : SortedByLength (afl.aExtras.take useAutoExtras)) {stages : List Stage}
    (h : ∀ stage ∈ stages, InPlaceStage afl eff m len stage) {s : Bench Bytes} (hs : s.Gentle)
    (hwork : s.work = m) : (stages.forM id s).2.work = m := by
  induction stages generalizing s with
  | nil => exact hwork
  | cons stage stages ih =>
    obtain ⟨Q, hstage⟩ := (h stage List.mem_cons_self).restore hextras hauto
    exact ih (fun st hst => h st (List.mem_cons_of_mem _ hst)) (hstage.gentle hs hwork)
      (hstage.work s hs hwork)

/-- What the target gets of a buffer is what the buffer holds, up to the length that is sent. -/
def SentAsIs (cfg : WriteConfig) (len : ℕ) (x : Bytes) : Prop :=
  ∀ calls test, (writeToTestcase cfg calls x len).executed = some test →
    test = contents x (cfg.clip len)

/-- The fuzzer in front of a stage. -/
def stageBench (cfg : WriteConfig) (b : OutBufs) (m : Bytes) (len : ℕ) : Bench Bytes :=
  ⟨m, [], cfg.after b len⟩

end Stages

/-- A dictionary of two tokens, the second behind the first. -/
def abDictionary : Tokens where
  extras := [[0x61], [0x61, 0x62]]
  maxDetExtras := 200
  aExtras := [[0x62]]

/-- A mutator that copies the data to memory of its own. -/
def copyingMutator : WriteConfig where
  customMutators := [some fun _ buf len => ⟨buf, .own buf, len⟩]
  keepOriginal := false
  minLength := 1
  maxLength := maxFile

/-- The `afl_custom_post_process` of `post_library_gif.so.c`: every test case starts with "GIF89a",
which is put where the data lies. -/
def gifPostProcess : PostProcess := fun _ buf len =>
  let header := [0x47, 0x49, 0x46, 0x38, 0x39, 0x61]
  if len < header.length then ⟨buf, .place, 0⟩
  else if TokenAt buf 0 header then ⟨buf, .place, len⟩
  else ⟨putToken 0 header buf, .place, len⟩

def gifMutator : WriteConfig where
  customMutators := [some gifPostProcess]
  keepOriginal := false
  minLength := 1
  maxLength := maxFile

end AflPlusPlus.Mutation
