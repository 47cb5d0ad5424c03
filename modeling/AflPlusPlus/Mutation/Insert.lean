import AflPlusPlus.Lib.Loop
import AflPlusPlus.Mutation.Havoc
import AflPlusPlus.Mutation.Overwrite
import Mathlib.Data.Nat.Find

/-!
# Tokens between the bytes of the input

The stages that insert the tokens of a dictionary. The cases are built in one scratch buffer: the
bytes before the position are there from the positions before, each of which copies one byte when it
is done. A position that the skip map leaves out does not copy its byte.
-/

namespace AflPlusPlus.Mutation
open Lib

/-- The scratch buffer, what has been executed, and which positions of the map and of `out_buf` have
been read; `left` says that the stage was left by a `goto`. -/
structure InsertRun where
  exTmp : Bytes
  executed : List (List Byte) := []
  mapReads : List ℕ := []
  bufReads : List ℕ := []
  left : Bool := false

/-- What comes from outside: the answers of `is_det_timeout` at a position, and the results of
`common_fuzz_stuff` for a token at a position. -/
structure Outcomes where
  timeout : ℕ → Bool
  stop : ℕ → ℕ → Bool

/-- The token, the tail, and the execution. -/
def insertToken (outBuf : Bytes) (len i : ℕ) (data : List Byte) (r : InsertRun) : InsertRun :=
  let exTmp := putToken i data r.exTmp
  let exTmp := copyBlock exTmp (i + data.length) outBuf i (len - i)
  { r with
    exTmp
    executed := r.executed ++ [contents exTmp (len + data.length)]
    bufReads := r.bufReads ++ List.range' i (len - i) }

/-- The loop over the tokens at position `i`, from token `j` on. -/
def insertTokens (outBuf : Bytes) (len i : ℕ) (stop : ℕ → Bool) :
    ℕ → List (List Byte) → InsertRun → InsertRun
  | _, [], r => r
  | j, data :: rest, r =>
    if len + data.length > maxFile then insertTokens outBuf len i stop (j + 1) rest r
    else
      let r := insertToken outBuf len i data r
      if stop j then { r with left := true }
      else insertTokens outBuf len i stop (j + 1) rest r

/-- One round of the loop over the positions. -/
def insertAt (o : Outcomes) (eff : ℕ → Bool) (outBuf : Bytes) (len : ℕ) (tokens : List (List Byte))
    (i : ℕ) (r : InsertRun) : InsertRun :=
  if r.left then r
  else
    let r := { r with mapReads := r.mapReads ++ [i % len] }
    if !eff (i % len) then r
    else if o.timeout i then { r with left := true }
    else
      let r := insertTokens outBuf len i (o.stop i) 0 tokens r
      if r.left then r
      else { r with exTmp := setByte r.exTmp i (outBuf i), bufReads := r.bufReads ++ [i] }

/-- An inserting stage on a scratch buffer with old contents. `out_buf` is the input again. -/
def extrasInsert (o : Outcomes) (eff : ℕ → Bool) (outBuf : Bytes) (len : ℕ)
    (tokens : List (List Byte)) (exTmp : Bytes) : InsertRun :=
  if tokens = [] then { exTmp }
  else forLoop (len + 1) (insertAt o eff outBuf len tokens) { exTmp }

/-- "user extras (insert)". -/
def userExtrasInsert (afl : Tokens) (o : Outcomes) (eff : ℕ → Bool) (outBuf : Bytes) (len : ℕ)
    (exTmp : Bytes) : InsertRun :=
  extrasInsert o eff outBuf len afl.extras exTmp

/-- "auto extras (insert)"; all of them, and not only the first. -/
def autoExtrasInsert (afl : Tokens) (o : Outcomes) (eff : ℕ → Bool) (outBuf : Bytes) (len : ℕ)
    (exTmp : Bytes) : InsertRun :=
  extrasInsert o eff outBuf len afl.aExtras exTmp

/-- The input with a token at some position. -/
def IsInsertion (inBuf : Bytes) (len : ℕ) (tokens : List (List Byte)) (x : List Byte) : Prop :=
  ∃ i, i ≤ len ∧ ∃ data ∈ tokens, x = contents inBuf i ++ data ++ (contents inBuf len).drop i

structure InsertsRight (inBuf : Bytes) (len : ℕ) (tokens : List (List Byte)) (r : InsertRun) :
    Prop where
  executed : ∀ x ∈ r.executed, IsInsertion inBuf len tokens x
  mapReads : ∀ a ∈ r.mapReads, a < len
  bufReads : ∀ a ∈ r.bufReads, a < len

/-! ### The tokens at one position -/

section Position

variable {outBuf : Bytes} {len i : ℕ} {data : List Byte}

theorem contents_tokenBytes (data : List Byte) : contents (tokenBytes data) data.length = data := by
  refine List.ext_getElem (length_contents _ _) fun p hp hp' => ?_
  simp only [contents, List.getElem_map, List.getElem_range, tokenBytes]
  rw [List.getD_eq_getElem?_getD, List.getElem?_eq_getElem hp', Option.getD_some]

theorem drop_contents (m : Bytes) {i len : ℕ} (hi : i ≤ len) :
    (contents m len).drop i = contents (fun p => m (i + p)) (len - i) := by
  have hlen : len = i + (len - i) := by omega
  conv_lhs => rw [hlen, contents_add]
  exact List.drop_left' (length_contents _ _)

theorem head_insertToken (data : List Byte) (m : Bytes) :
    contents (copyBlock (putToken i data m) (i + data.length) outBuf i (len - i)) i =
      contents m i := by
  rw [contents_eq_iff]
  intro p hp
  rw [copyBlock, if_neg (by omega), putToken, copyBlock, if_neg (by omega)]

/-- What is executed: the scratch buffer before the position, the token, and the tail. -/
theorem contents_insertToken (hi : i ≤ len) (data : List Byte) (m : Bytes) :
    contents (copyBlock (putToken i data m) (i + data.length) outBuf i (len - i))
      (len + data.length) = contents m i ++ data ++ (contents outBuf len).drop i := by
  have hlen : len + data.length = i + data.length + (len - i) := by omega
  have htoken : contents (fun p =>
      copyBlock (putToken i data m) (i + data.length) outBuf i (len - i) (i + p)) data.length =
      contents (tokenBytes data) data.length := by
    rw [contents_eq_iff]
    intro p hp
    rw [copyBlock, if_neg (by omega), putToken, copyBlock, if_pos ⟨by omega, by omega⟩,
      Nat.zero_add, Nat.add_sub_cancel_left]
  have htail : contents (fun p =>
      copyBlock (putToken i data m) (i + data.length) outBuf i (len - i) (i + data.length + p))
      (len - i) = contents (fun p => outBuf (i + p)) (len - i) := by
    rw [contents_eq_iff]
    intro p hp
    rw [copyBlock, if_pos ⟨by omega, by omega⟩, Nat.add_sub_cancel_left]
  rw [hlen, contents_add, contents_add, head_insertToken, htoken, htail, contents_tokenBytes,
    drop_contents outBuf hi]

/-- The state after some of the tokens at position `i`. -/
structure TokensDone (outBuf : Bytes) (len i : ℕ) (tokens : List (List Byte)) (r r' : InsertRun) :
    Prop where
  executed : ∀ x ∈ r'.executed, x ∈ r.executed ∨ ∃ data ∈ tokens, len + data.length ≤ maxFile ∧
    x = contents r.exTmp i ++ data ++ (contents outBuf len).drop i
  kept : ∀ x ∈ r.executed, x ∈ r'.executed
  head : contents r'.exTmp i = contents r.exTmp i
  mapReads : r'.mapReads = r.mapReads
  bufReads : ∀ a ∈ r'.bufReads, a ∈ r.bufReads ∨ a < len

variable {tokens : List (List Byte)} {r r' r'' : InsertRun}

theorem TokensDone.refl (r : InsertRun) : TokensDone outBuf len i tokens r r :=
  ⟨fun _ h => .inl h, fun _ h => h, rfl, rfl, fun _ h => .inl h⟩

theorem TokensDone.trans (h : TokensDone outBuf len i tokens r r')
    (h' : TokensDone outBuf len i tokens r' r'') : TokensDone outBuf len i tokens r r'' where
  executed := by
    intro x hx
    rcases h'.executed x hx with hx | hx
    · exact h.executed x hx
    · rw [h.head] at hx
      exact .inr hx
  kept := fun x hx => h'.kept x (h.kept x hx)
  head := h'.head.trans h.head
  mapReads := h'.mapReads.trans h.mapReads
  bufReads := fun a ha => (h'.bufReads a ha).elim (h.bufReads a) .inr

theorem mem_insertToken (hi : i ≤ len) (data : List Byte) (r : InsertRun) :
    contents r.exTmp i ++ data ++ (contents outBuf len).drop i ∈
      (insertToken outBuf len i data r).executed := by
  rw [← contents_insertToken hi]
  exact List.mem_append_right _ (List.mem_singleton_self _)

theorem insertToken_done (hi : i ≤ len) (hdata : data ∈ tokens)
    (hfit : len + data.length ≤ maxFile) (r : InsertRun) :
    TokensDone outBuf len i tokens r (insertToken outBuf len i data r) where
  executed := by
    intro x hx
    rcases List.mem_append.mp hx with hx | hx
    · exact .inl hx
    · rw [List.mem_singleton, contents_insertToken hi] at hx
      exact .inr ⟨data, hdata, hfit, hx⟩
  kept := fun x hx => List.mem_append_left _ hx
  head := head_insertToken data r.exTmp
  mapReads := rfl
  bufReads := by
    intro a ha
    rcases List.mem_append.mp ha with ha | ha
    · exact .inl ha
    · have := List.mem_range'_1.mp ha
      exact .inr (by omega)

theorem insertTokens_done (outBuf : Bytes) (hi : i ≤ len) (stop : ℕ → Bool)
    {rest : List (List Byte)} (hrest : ∀ data ∈ rest, data ∈ tokens) (j : ℕ) (r : InsertRun) :
    TokensDone outBuf len i tokens r (insertTokens outBuf len i stop j rest r) := by
  induction rest generalizing j r with
  | nil => exact .refl r
  | cons data rest ih =>
    have hrest' : ∀ data ∈ rest, data ∈ tokens := fun d hd => hrest d (List.mem_cons_of_mem _ hd)
    rw [insertTokens]
    split
    · exact ih hrest' (j + 1) r
    · have hstep : TokensDone outBuf len i tokens r (insertToken outBuf len i data r) :=
        insertToken_done hi (hrest data List.mem_cons_self) (by omega) r
      dsimp only
      split
      · exact ⟨hstep.executed, hstep.kept, hstep.head, hstep.mapReads, hstep.bufReads⟩
      · exact hstep.trans (ih hrest' (j + 1) _)

/-- Tokens for which there is no room are all passed over. -/
theorem insertTokens_long (stop : ℕ → Bool) (hlong : ∀ data ∈ tokens, maxFile < len + data.length)
    (j : ℕ) (r : InsertRun) : insertTokens outBuf len i stop j tokens r = r := by
  induction tokens generalizing j with
  | nil => rfl
  | cons data rest ih =>
    rw [insertTokens, if_pos (hlong data List.mem_cons_self)]
    exact ih (fun d hd => hlong d (List.mem_cons_of_mem _ hd)) (j + 1)

/-- A run that is not stopped executes all tokens for which there is room. -/
theorem insertTokens_all (outBuf : Bytes) (tokens : List (List Byte)) (hi : i ≤ len)
    {stop : ℕ → Bool} (hstop : ∀ j, stop j = false) (j : ℕ) (r : InsertRun) :
    (insertTokens outBuf len i stop j tokens r).left = r.left ∧
      ∀ data ∈ tokens, len + data.length ≤ maxFile →
        contents r.exTmp i ++ data ++ (contents outBuf len).drop i ∈
          (insertTokens outBuf len i stop j tokens r).executed := by
  induction tokens generalizing j r with
  | nil => exact ⟨rfl, fun data hdata => absurd hdata List.not_mem_nil⟩
  | cons token rest ih =>
    rw [insertTokens]
    split
    · rename_i hlong
      refine ⟨(ih (j + 1) r).1, fun data hdata hfit => ?_⟩
      rcases List.mem_cons.mp hdata with rfl | hdata
      · omega
      · exact (ih (j + 1) r).2 data hdata hfit
    · dsimp only
      rw [hstop j, if_neg Bool.false_ne_true]
      obtain ⟨hleft, hall⟩ := ih (j + 1) (insertToken outBuf len i token r)
      refine ⟨hleft, fun data hdata hfit => ?_⟩
      rcases List.mem_cons.mp hdata with rfl | hdata
      · exact (insertTokens_done outBuf hi stop (fun _ h => h) (j + 1) _).kept _
          (mem_insertToken hi data r)
      · have hhead : contents (insertToken outBuf len i token r).exTmp i = contents r.exTmp i :=
          head_insertToken token r.exTmp
        rw [← hhead]
        exact hall data hdata hfit

end Position

/-! ### Coincidences -/

section Coincidence

variable {inBuf : Bytes} {len i : ℕ} {s : Byte} {tokens : List (List Byte)}

theorem getElem?_contents (m : Bytes) {n p : ℕ} (hp : p < n) : (contents m n)[p]? = some (m p) := by
  simp [contents, hp]

/-- A case with wrong bytes before the position may still be an insertion, at the beginning and of
another token. -/
theorem IsInsertion.other {t : List Byte} (hi : 0 < i) (hil : i ≤ len) (hs : s ≠ inBuf 0)
    (h : IsInsertion inBuf len tokens
      (contents (fun _ => s) i ++ t ++ (contents inBuf len).drop i)) :
    i ≤ t.length ∧ t[t.length - i]? = some (inBuf 0) ∧
      ∃ t' ∈ tokens, t'.length = t.length ∧
        ∀ p, p < t.length → t'[p]? = if p < i then some s else t[p - i]? := by
  obtain ⟨i', hi', t', ht', heq⟩ := h
  have hlength := congrArg List.length heq
  simp only [List.length_append, length_contents, List.length_drop] at hlength
  have hbefore : ∀ p, p < i →
      (contents (fun _ => s) i ++ t ++ (contents inBuf len).drop i)[p]? = some s := by
    intro p hp
    rw [List.append_assoc, List.getElem?_append_left (by rwa [length_contents]),
      getElem?_contents _ hp]
  have htoken : ∀ p, i ≤ p → p < i + t.length →
      (contents (fun _ => s) i ++ t ++ (contents inBuf len).drop i)[p]? = t[p - i]? := by
    intro p hge hlt
    rw [List.getElem?_append_left (by rw [List.length_append, length_contents]; omega),
      List.getElem?_append_right (by rwa [length_contents]), length_contents]
  -- the first byte is wrong, so that the token stands at the beginning
  obtain rfl : i' = 0 := by
    by_contra hne
    have hfirst := hbefore 0 hi
    rw [heq, List.append_assoc, List.getElem?_append_left (by rw [length_contents]; omega),
      getElem?_contents _ (by omega)] at hfirst
    exact hs (Option.some.inj hfirst).symm
  have hstart : contents inBuf 0 ++ t' ++ (contents inBuf len).drop 0 = t' ++ contents inBuf len :=
    rfl
  rw [hstart] at heq
  have hlen : t'.length = t.length := by omega
  have hnext : (contents (fun _ => s) i ++ t ++ (contents inBuf len).drop i)[t.length]? =
      some (inBuf 0) := by
    rw [heq, List.getElem?_append_right (by omega), hlen, Nat.sub_self,
      getElem?_contents _ (by omega)]
  have hle : i ≤ t.length := by
    by_contra hlt
    rw [hbefore _ (by omega)] at hnext
    exact hs (Option.some.inj hnext)
  refine ⟨hle, ?_, t', ht', hlen, fun p hp => ?_⟩
  · rwa [htoken _ hle (by omega)] at hnext
  · have hp' : (contents (fun _ => s) i ++ t ++ (contents inBuf len).drop i)[p]? = t'[p]? := by
      rw [heq, List.getElem?_append_left (by omega)]
    rw [← hp']
    split
    · exact hbefore p ‹_›
    · exact htoken p (by omega) (by omega)

/-- With wrong bytes before the position, not all cases are insertions: a token that makes one right
demands another one that begins with more of these bytes. -/
theorem exists_not_isInsertion (hi : 0 < i) (hil : i ≤ len) (hs : s ≠ inBuf 0) {data : List Byte}
    (hdata : data ∈ tokens) (hfit : len + data.length ≤ maxFile) :
    ∃ t ∈ tokens, len + t.length ≤ maxFile ∧ ¬ IsInsertion inBuf len tokens
      (contents (fun _ => s) i ++ t ++ (contents inBuf len).drop i) := by
  by_contra hnone
  have hall : ∀ t ∈ tokens, t.length = data.length → IsInsertion inBuf len tokens
      (contents (fun _ => s) i ++ t ++ (contents inBuf len).drop i) := by
    intro t ht hlen
    by_contra hnot
    exact hnone ⟨t, ht, by omega, hnot⟩
  have hmore : ∀ k, ∃ t ∈ tokens, t.length = data.length ∧
      ∀ p, p < k → p < data.length → t[p]? = some s := by
    intro k
    induction k with
    | zero => exact ⟨data, hdata, rfl, fun p hp => absurd hp (Nat.not_lt_zero p)⟩
    | succ k ih =>
      obtain ⟨t, ht, hlen, hbegin⟩ := ih
      obtain ⟨-, -, t', ht', hlen', hshift⟩ := (hall t ht hlen).other hi hil hs
      refine ⟨t', ht', hlen'.trans hlen, fun p hp hlt => ?_⟩
      rw [hshift p (by omega)]
      split
      · rfl
      · exact hbegin _ (by omega) (by omega)
  obtain ⟨t, ht, hlen, hbegin⟩ := hmore data.length
  obtain ⟨hle, hlast, -⟩ := (hall t ht hlen).other hi hil hs
  rw [hbegin _ (by omega) (by omega)] at hlast
  exact hs (Option.some.inj hlast)

end Coincidence

/-! ### The loop over the positions -/

section Loop

variable {o : Outcomes} {eff : ℕ → Bool} {outBuf : Bytes} {len i : ℕ} {tokens : List (List Byte)}
  {r : InsertRun}

theorem insertAt_kept (hi : i ≤ len) {x : List Byte} (hx : x ∈ r.executed) :
    x ∈ (insertAt o eff outBuf len tokens i r).executed := by
  have hdone : TokensDone outBuf len i tokens _ _ := insertTokens_done outBuf hi (o.stop i)
    (fun _ h => h) 0 { r with mapReads := r.mapReads ++ [i % len] }
  unfold insertAt
  split
  · exact hx
  · dsimp only
    split
    · exact hx
    · split
      · exact hx
      · split <;> exact hdone.kept x hx

theorem executed_mono {m n : ℕ} (hmn : m ≤ n) (hn : n ≤ len + 1) {x : List Byte}
    (hx : x ∈ (forLoop m (insertAt o eff outBuf len tokens) r).executed) :
    x ∈ (forLoop n (insertAt o eff outBuf len tokens) r).executed := by
  induction n, hmn using Nat.le_induction with
  | base => exact hx
  | succ n hmn ih =>
    rw [forLoop_succ]
    exact insertAt_kept (by omega) (ih (by omega))

/-- A position that the map leaves out. -/
theorem insertAt_skip (hr : r.left = false) (heff : eff (i % len) = false) :
    insertAt o eff outBuf len tokens i r = { r with mapReads := r.mapReads ++ [i % len] } := by
  unfold insertAt
  rw [hr, if_neg Bool.false_ne_true]
  dsimp only
  rw [heff, if_pos (by rfl)]

/-- Nothing from outside ends the stage. -/
def undisturbed : Outcomes := ⟨fun _ => false, fun _ _ => false⟩

/-- A marked position, when nothing ends the stage. -/
theorem insertAt_marked (outBuf : Bytes) (tokens : List (List Byte)) (hi : i ≤ len)
    (hr : r.left = false) (heff : eff (i % len) = true) :
    (insertAt undisturbed eff outBuf len tokens i r).left = false ∧
      i ∈ (insertAt undisturbed eff outBuf len tokens i r).bufReads ∧
      i % len ∈ (insertAt undisturbed eff outBuf len tokens i r).mapReads ∧
      ∀ data ∈ tokens, len + data.length ≤ maxFile →
        contents r.exTmp i ++ data ++ (contents outBuf len).drop i ∈
          (insertAt undisturbed eff outBuf len tokens i r).executed := by
  obtain ⟨exTmp, executed, mapReads, bufReads, left⟩ := r
  obtain rfl : left = false := hr
  have hstop : ∀ j, undisturbed.stop i j = false := fun _ => rfl
  have htimeout : undisturbed.timeout i = false := rfl
  obtain ⟨hleft, hall⟩ := insertTokens_all outBuf tokens hi hstop 0
    ⟨exTmp, executed, mapReads ++ [i % len], bufReads, false⟩
  have hdone : TokensDone outBuf len i tokens _ _ := insertTokens_done outBuf hi
    (undisturbed.stop i) (fun _ h => h) 0 ⟨exTmp, executed, mapReads ++ [i % len], bufReads, false⟩
  unfold insertAt
  dsimp only
  rw [if_neg Bool.false_ne_true, heff, if_neg (by decide), htimeout, if_neg Bool.false_ne_true,
    hleft, if_neg Bool.false_ne_true]
  refine ⟨?_, List.mem_append_right _ (List.mem_singleton_self i), ?_, hall⟩
  · rfl
  rw [hdone.mapReads]
  exact List.mem_append_right _ (List.mem_singleton_self _)

theorem insertAt_undisturbed (eff : ℕ → Bool) (outBuf : Bytes) (tokens : List (List Byte))
    (hi : i ≤ len) (hr : r.left = false) :
    (insertAt undisturbed eff outBuf len tokens i r).left = false ∧
      i % len ∈ (insertAt undisturbed eff outBuf len tokens i r).mapReads := by
  cases heff : eff (i % len) with
  | false =>
    rw [insertAt_skip hr heff]
    exact ⟨hr, List.mem_append_right _ (List.mem_singleton_self _)⟩
  | true =>
    obtain ⟨hleft, -, hmap, -⟩ := insertAt_marked outBuf tokens hi hr heff
    exact ⟨hleft, hmap⟩

theorem forLoop_undisturbed (eff : ℕ → Bool) (outBuf : Bytes) (tokens : List (List Byte)) {n : ℕ}
    (hn : n ≤ len + 1) (hr : r.left = false) :
    (forLoop n (insertAt undisturbed eff outBuf len tokens) r).left = false :=
  forLoop_invariant (fun t : InsertRun => t.left = false) hr fun _ _ hi ht =>
    (insertAt_undisturbed eff outBuf tokens (by omega) ht).1

end Loop

/-! ### When the stages are right -/

section Right

variable {eff : ℕ → Bool} {outBuf : Bytes} {len : ℕ} {tokens : List (List Byte)}

/-- No position at which a token is inserted, the first byte being left out. -/
def NothingInserted (eff : ℕ → Bool) (len : ℕ) (tokens : List (List Byte)) : Prop :=
  eff 0 = false ∧ ∀ i, i < len → eff i = true → ∀ data ∈ tokens, maxFile < len + data.length

theorem InsertsRight.start (exTmp : Bytes) : InsertsRight outBuf len tokens { exTmp } :=
  ⟨fun _ hx => absurd hx List.not_mem_nil, fun _ ha => absurd ha List.not_mem_nil,
    fun _ ha => absurd ha List.not_mem_nil⟩

theorem insertsRight_of_nothingInserted (hlen : 0 < len) (h : NothingInserted eff len tokens)
    (o : Outcomes) (exTmp : Bytes) :
    InsertsRight outBuf len tokens
      (forLoop (len + 1) (insertAt o eff outBuf len tokens) { exTmp }) := by
  refine forLoop_invariant (InsertsRight outBuf len tokens) (.start exTmp) fun i r hi hr => ?_
  have hmap : ∀ a ∈ r.mapReads ++ [i % len], a < len := by
    intro a ha
    rcases List.mem_append.mp ha with ha | ha
    · exact hr.mapReads a ha
    · rw [List.mem_singleton.mp ha]
      exact Nat.mod_lt _ hlen
  unfold insertAt
  split
  · exact hr
  · dsimp only
    split
    · exact ⟨hr.executed, hmap, hr.bufReads⟩
    · rename_i hmarked
      have hmarked' : eff (i % len) = true := by simpa using hmarked
      have hlong := h.2 (i % len) (Nat.mod_lt _ hlen) hmarked'
      -- behind the last byte the first one is asked for, which is left out
      have hlt : i < len := by
        by_contra hge
        obtain rfl : i = len := by omega
        rw [Nat.mod_self, h.1] at hmarked'
        exact Bool.false_ne_true hmarked'
      split
      · exact ⟨hr.executed, hmap, hr.bufReads⟩
      · rw [insertTokens_long _ hlong]
        split
        · exact ⟨hr.executed, hmap, hr.bufReads⟩
        · refine ⟨hr.executed, hmap, fun a ha => ?_⟩
          rcases List.mem_append.mp ha with ha | ha
          · exact hr.bufReads a ha
          · rwa [List.mem_singleton.mp ha]

/-- The bytes before the first marked position are those that the scratch buffer held before. -/
theorem forLoop_unmarked (outBuf : Bytes) (tokens : List (List Byte)) {n : ℕ} (hn : n < len)
    (hunmarked : ∀ i, i < n → eff i = false) (exTmp : Bytes) :
    (forLoop n (insertAt undisturbed eff outBuf len tokens) { exTmp }).exTmp = exTmp ∧
      (forLoop n (insertAt undisturbed eff outBuf len tokens) { exTmp }).left = false := by
  refine forLoop_invariant (fun r : InsertRun => r.exTmp = exTmp ∧ r.left = false)
    ⟨rfl, rfl⟩ fun i r hi hr => ?_
  rw [insertAt_skip hr.2 (by rw [Nat.mod_eq_of_lt (by omega)]; exact hunmarked i hi)]
  exact hr

theorem nothingInserted_of_insertsRight (outBuf : Bytes)
    (h : ∀ exTmp, InsertsRight outBuf len tokens
      (forLoop (len + 1) (insertAt undisturbed eff outBuf len tokens) { exTmp })) :
    0 < len ∧ NothingInserted eff len tokens := by
  have hstart : (forLoop len (insertAt undisturbed eff outBuf len tokens)
      { exTmp := fun _ => 0 }).left = false :=
    forLoop_undisturbed eff outBuf tokens (Nat.le_succ len) rfl
  have hright := h fun _ => 0
  rw [forLoop_succ] at hright
  have hlen : 0 < len := by
    have := hright.mapReads _ (insertAt_undisturbed eff outBuf tokens (Nat.le_refl len) hstart).2
    omega
  have hfirst : eff 0 = false := by
    by_contra hmarked
    have hread := (insertAt_marked outBuf tokens (Nat.le_refl len) hstart
      (by rw [Nat.mod_self]; simpa using hmarked)).2.1
    exact absurd (hright.bufReads _ hread) (Nat.lt_irrefl len)
  refine ⟨hlen, hfirst, fun i hi heff data hdata => ?_⟩
  by_contra hfit
  -- the first marked position
  have hex : ∃ i, eff i = true := ⟨i, heff⟩
  have hmarked := Nat.find_spec hex
  have hmin : ∀ p, p < Nat.find hex → eff p = false := fun p hp => by
    simpa using Nat.find_min hex hp
  have hle : Nat.find hex ≤ i := Nat.find_le heff
  have hpos : 0 < Nat.find hex := by
    refine Nat.pos_of_ne_zero fun hzero => ?_
    rw [hzero, hfirst] at hmarked
    exact Bool.false_ne_true hmarked
  generalize Nat.find hex = n at hmarked hmin hle hpos
  -- the scratch buffer held a byte that the input does not begin with
  have hstale : outBuf 0 + 1 ≠ outBuf 0 := by bv_omega
  obtain ⟨t, ht, htfit, hnot⟩ := exists_not_isInsertion hpos (by omega : n ≤ len) hstale hdata
    (by omega)
  obtain ⟨hsame, hleft⟩ :=
    forLoop_unmarked outBuf tokens (by omega : n < len) hmin fun _ => outBuf 0 + 1
  have hmarked' : eff (n % len) = true := by
    rw [Nat.mod_eq_of_lt (by omega)]
    exact hmarked
  obtain ⟨-, -, -, hcase⟩ := insertAt_marked outBuf tokens (by omega : n ≤ len) hleft hmarked'
  have hmem := hcase t ht htfit
  rw [hsame, ← forLoop_succ n (insertAt undisturbed eff outBuf len tokens)] at hmem
  exact hnot ((h fun _ => outBuf 0 + 1).executed _
    (executed_mono (by omega) (Nat.le_refl _) hmem))

/-- A stage is right, whatever the scratch buffer held before and however it ends, exactly when it
executes nothing and leaves out the first byte. -/
theorem extrasInsert_right_iff (eff : ℕ → Bool) (outBuf : Bytes) (len : ℕ)
    (tokens : List (List Byte)) :
    (∀ o exTmp, InsertsRight outBuf len tokens (extrasInsert o eff outBuf len tokens exTmp)) ↔
      tokens = [] ∨ 0 < len ∧ NothingInserted eff len tokens := by
  by_cases htokens : tokens = []
  · refine iff_of_true (fun o exTmp => ?_) (.inl htokens)
    rw [extrasInsert, if_pos htokens]
    exact .start exTmp
  · rw [or_iff_right htokens]
    constructor
    · intro h
      refine nothingInserted_of_insertsRight outBuf fun exTmp => ?_
      have := h undisturbed exTmp
      rwa [extrasInsert, if_neg htokens] at this
    · rintro ⟨hlen, h⟩ o exTmp
      rw [extrasInsert, if_neg htokens]
      exact insertsRight_of_nothingInserted hlen h o exTmp

theorem insertStages_right_iff (afl : Tokens) (eff : ℕ → Bool) (outBuf : Bytes) (len : ℕ) :
    (∀ o exTmp, InsertsRight outBuf len afl.extras (userExtrasInsert afl o eff outBuf len exTmp) ∧
        InsertsRight outBuf len afl.aExtras (autoExtrasInsert afl o eff outBuf len exTmp)) ↔
      (afl.extras = [] ∨ 0 < len ∧ NothingInserted eff len afl.extras) ∧
        (afl.aExtras = [] ∨ 0 < len ∧ NothingInserted eff len afl.aExtras) := by
  rw [← extrasInsert_right_iff eff outBuf len afl.extras,
    ← extrasInsert_right_iff eff outBuf len afl.aExtras]
  exact ⟨fun h => ⟨fun o exTmp => (h o exTmp).1, fun o exTmp => (h o exTmp).2⟩,
    fun h o exTmp => ⟨h.1 o exTmp, h.2 o exTmp⟩⟩

/-- Where no byte is left out, what is executed is right. -/
theorem extrasInsert_executed_of_marked (hall : ∀ i, i ≤ len → eff (i % len) = true) (o : Outcomes)
    (exTmp : Bytes) {x : List Byte}
    (hx : x ∈ (extrasInsert o eff outBuf len tokens exTmp).executed) :
    IsInsertion outBuf len tokens x := by
  unfold extrasInsert at hx
  split at hx
  · exact absurd hx List.not_mem_nil
  refine (forLoop_induct (fun i (r : InsertRun) =>
    (∀ x ∈ r.executed, IsInsertion outBuf len tokens x) ∧
      (r.left = false → contents r.exTmp i = contents outBuf i)) ?_ ?_).1 x hx
  · exact ⟨fun _ h => absurd h List.not_mem_nil, fun _ => rfl⟩
  rintro i r hi ⟨hexecuted, hhead⟩
  unfold insertAt
  split
  · exact ⟨hexecuted, fun h => absurd (h.symm.trans ‹r.left = true›) Bool.false_ne_true⟩
  rename_i hleft
  have hhead' := hhead (by simpa using hleft)
  have hi' : i ≤ len := Nat.le_of_lt_succ hi
  dsimp only
  rw [hall i hi', if_neg (by decide)]
  split
  · exact ⟨hexecuted, fun h => absurd h.symm Bool.false_ne_true⟩
  have hdone : TokensDone outBuf len i tokens _ _ := insertTokens_done outBuf hi' (o.stop i)
    (fun _ h => h) 0 { r with mapReads := r.mapReads ++ [i % len] }
  have hcases : ∀ x ∈ (insertTokens outBuf len i (o.stop i) 0 tokens
      { r with mapReads := r.mapReads ++ [i % len] }).executed,
      IsInsertion outBuf len tokens x := by
    intro x hx
    rcases hdone.executed x hx with hx | ⟨data, hdata, -, rfl⟩
    · exact hexecuted x hx
    · exact ⟨i, hi', data, hdata, by rw [← hhead']⟩
  split
  · exact ⟨hcases, fun h => absurd (h.symm.trans ‹_›) Bool.false_ne_true⟩
  · refine ⟨hcases, fun _ => ?_⟩
    -- the byte that the position adds to the head
    have hbefore := contents_eq_iff.mp (hdone.head.trans hhead')
    refine contents_eq_iff.mpr fun p hp => ?_
    dsimp only
    rw [setByte]
    split
    · rw [‹p = i›]
    · exact hbefore p (by omega)

end Right

/-- The input "ab" with the token "X": when the first byte is left out, the case at position 1
begins with what the scratch buffer held before; when it is not, a byte behind the end is read. -/
theorem insertStages_not_right :
    (userExtrasInsert ⟨[[0x58]], 200, []⟩ undisturbed (fun i => i == 1)
        (fun i => [0x61, 0x62].getD i 0) 2 fun _ => 0).executed = [[0, 0x58, 0x62]] ∧
      ¬ InsertsRight (fun i => [0x61, 0x62].getD i 0) 2 [[0x58]]
        (userExtrasInsert ⟨[[0x58]], 200, []⟩ undisturbed (fun i => i == 1)
          (fun i => [0x61, 0x62].getD i 0) 2 fun _ => 0) ∧
      2 ∈ (userExtrasInsert ⟨[[0x58]], 200, []⟩ undisturbed (fun _ => true)
        (fun i => [0x61, 0x62].getD i 0) 2 fun _ => 0).bufReads := by
  refine ⟨by decide, fun h => ?_, by decide⟩
  obtain ⟨i, hi, data, hdata, heq⟩ := h.executed [0, 0x58, 0x62] (by decide)
  obtain rfl := List.mem_singleton.mp hdata
  have hcases : i = 0 ∨ i = 1 ∨ i = 2 := by omega
  rcases hcases with rfl | rfl | rfl <;> exact absurd heq (by decide)

end AflPlusPlus.Mutation
