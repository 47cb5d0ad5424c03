import AflPlusPlus.Lib.Pipe
import Mathlib.Tactic.SplitIfs

/-!
# Programs that read a byte stream

A stream hands over its bytes in pieces of any size. `Recv` is a program that reads numbers and
arrays with loops of receives, `Reader` is such a program in the middle of a loop. An array is read
correctly however it is cut. A number is read by `recv(s, &v + received, 4 - received)`, whose
pointer counts in numbers: after a first piece of less than four bytes the next one is stored behind
the variable, which keeps what it held. A reader whose numbers arrive in one piece ends with what
the program makes of the whole message.
-/

namespace Lib

variable {α : Type*}

/-- `bytes n ask` receives until there are `n` bytes, asking for up to `ask` in total. -/
inductive Recv (α : Type*)
  | done (a : α)
  | fatal
  | word (k : BitVec 32 → Recv α)
  | bytes (n ask : ℕ) (k : List Byte → Recv α)

/-- A loop for no bytes is left at once. -/
def Recv.upTo (n ask : ℕ) (k : List Byte → Recv α) : Recv α :=
  if n = 0 then k [] else .bytes n ask k

/-- The result for a message that is read to its end. -/
def Recv.eval : Recv α → List Byte → Option α
  | .done a, msg => if msg = [] then some a else none
  | .fatal, _ => none
  | .word k, msg => if 4 ≤ msg.length then (k (readLe32 msg)).eval (msg.drop 4) else none
  | .bytes n ask k, msg =>
    if 0 < n ∧ n ≤ msg.length ∧ n ≤ ask ∧ (n = ask ∨ msg.length = n) then
      (k (msg.take n)).eval (msg.drop n)
    else none

/-- A program with what its current loop has received. -/
structure Reader (α : Type*) where reading ::
  rest : Recv α
  got : List Byte

namespace Reader

/-- The next receive returns `k` bytes. A number that was torn is read as `torn`: nothing is said
about the bytes that its variable held, or about what the rest of it was stored over. -/
def receive (k : ℕ) (torn : BitVec 32) (stream : List Byte) :
    Reader α → Option (Reader α × List Byte)
  | .reading (.word f) got =>
    if 0 < k ∧ k ≤ 4 - got.length ∧ k ≤ stream.length then
      let got' := got ++ stream.take k
      if got'.length < 4 then some (.reading (.word f) got', stream.drop k)
      else some (.reading (f (if got = [] then readLe32 got' else torn)) [], stream.drop k)
    else none
  | .reading (.bytes n ask f) got =>
    -- a receive of no bytes returns 0
    if ask ≤ got.length then some (.reading .fatal [], stream)
    else if 0 < k ∧ k ≤ ask - got.length ∧ k ≤ stream.length then
      let got' := got ++ stream.take k
      if got'.length < n then some (.reading (.bytes n ask f) got', stream.drop k)
      else if got'.length = n then some (.reading (f got') [], stream.drop k)
      else some (.reading .fatal [], stream.drop k)
    else none
  | _ => none

/-- Numbers are received in one piece. -/
def Whole (k : ℕ) : Reader α → Prop
  | .reading (.word _) _ => k = 4
  | _ => True

instance (rd : Reader α) (k : ℕ) : Decidable (rd.Whole k) :=
  match rd with
  | .reading (.word _) _ => inferInstanceAs (Decidable (k = 4))
  | .reading (.done _) _ => isTrue trivial
  | .reading .fatal _ => isTrue trivial
  | .reading (.bytes ..) _ => isTrue trivial

/-- With the rest of the stream the reader will end with `a`. -/
inductive Expects (stream : List Byte) (a : α) : Reader α → Prop
  | start {r : Recv α} : r.eval stream = some a → Expects stream a (.reading r [])
  | inside {n ask : ℕ} {f : List Byte → Recv α} {got : List Byte} : got.length < n →
      (Recv.bytes n ask f).eval (got ++ stream) = some a →
      Expects stream a (.reading (.bytes n ask f) got)

/-- The program has given up. -/
def failed : Reader α → Bool
  | .reading .fatal _ => true
  | _ => false

/-- The program has come to its end. -/
def ended : Reader α → Bool
  | .reading (.done _) _ => true
  | .reading .fatal _ => true
  | _ => false

variable {k : ℕ} {torn : BitVec 32} {stream rest got : List Byte} {a : α} {rd rd' : Reader α}

theorem eval_word {f : BitVec 32 → Recv α} {msg : List Byte} (h : (Recv.word f).eval msg = some a) :
    4 ≤ msg.length ∧ (f (readLe32 msg)).eval (msg.drop 4) = some a := by
  rw [Recv.eval] at h
  split_ifs at h with hlen
  exact ⟨hlen, h⟩

theorem eval_bytes {n ask : ℕ} {f : List Byte → Recv α} {msg : List Byte}
    (h : (Recv.bytes n ask f).eval msg = some a) :
    (0 < n ∧ n ≤ msg.length ∧ n ≤ ask ∧ (n = ask ∨ msg.length = n)) ∧
      (f (msg.take n)).eval (msg.drop n) = some a := by
  rw [Recv.eval] at h
  split_ifs at h with hlen
  exact ⟨hlen, h⟩

theorem readLe32_take (msg : List Byte) : readLe32 (msg.take 4) = readLe32 msg := by
  refine eq_of_wordByte (by decide) fun b hb => ?_
  rw [readLe32, readLe32, wordByte_word (by decide) _ _ hb, wordByte_word (by decide) _ _ hb]
  have hb : b < 4 := hb
  simp only [List.getD_eq_getElem?_getD, List.getElem?_take]
  rw [if_pos (by omega)]

/-- A loop for an array is not disturbed by the sizes of the pieces. -/
theorem Expects.bytes {n ask : ℕ} {f : List Byte → Recv α} (hgot : got.length < n)
    (h : (Recv.bytes n ask f).eval (got ++ stream) = some a)
    (hrecv : Reader.receive k torn stream (.reading (.bytes n ask f) got) = some (rd', rest)) :
    Expects rest a rd' ∧ rest.length < stream.length := by
  obtain ⟨⟨hn, hle, hask, hexact⟩, heval⟩ := eval_bytes h
  rw [List.length_append] at hle hexact
  rw [Reader.receive, if_neg (by omega)] at hrecv
  dsimp only at hrecv
  split_ifs at hrecv with hk hlt heq
  · obtain ⟨rfl, rfl⟩ := Prod.mk.inj (Option.some.inj hrecv)
    refine ⟨.inside hlt ?_, by rw [List.length_drop]; omega⟩
    rw [List.append_assoc, List.take_append_drop]
    exact h
  · obtain ⟨rfl, rfl⟩ := Prod.mk.inj (Option.some.inj hrecv)
    rw [List.length_append, List.length_take] at heq
    have hlen : n - got.length = k := by omega
    refine ⟨.start ?_, by rw [List.length_drop]; omega⟩
    rw [List.take_append, List.drop_append, List.take_of_length_le (by omega),
      List.drop_eq_nil_of_le (by omega), hlen] at heval
    exact heval
  · rw [List.length_append, List.length_take] at hlt heq
    omega

/-- A receive that tears no number keeps the reader on its way. -/
theorem Expects.receive (h : Expects stream a rd) (hwhole : Whole k rd)
    (hrecv : Reader.receive k torn stream rd = some (rd', rest)) :
    Expects rest a rd' ∧ rest.length < stream.length := by
  cases h with
  | @start r h =>
    cases r with
    | done a => exact absurd hrecv (Option.some_ne_none _).symm
    | fatal => exact absurd hrecv (Option.some_ne_none _).symm
    | word f =>
      obtain ⟨hlen, heval⟩ := eval_word h
      obtain rfl : k = 4 := hwhole
      have hpiece : ¬ ([] ++ stream.take 4).length < 4 := by
        rw [List.nil_append, List.length_take]
        omega
      rw [Reader.receive, if_pos ⟨by decide, Nat.le_refl 4, hlen⟩] at hrecv
      dsimp only at hrecv
      rw [if_neg hpiece, if_pos rfl, List.nil_append, readLe32_take] at hrecv
      obtain ⟨rfl, rfl⟩ := Prod.mk.inj (Option.some.inj hrecv)
      exact ⟨.start heval, by rw [List.length_drop]; omega⟩
    | bytes n ask f => exact Expects.bytes (eval_bytes h).1.1 h hrecv
  | inside hgot h => exact Expects.bytes hgot h hrecv

/-- A reader that is on its way has ended, or can receive. -/
theorem Expects.exists_receive (torn : BitVec 32) (h : Expects stream a rd) :
    (rd = .reading (.done a) [] ∧ stream = []) ∨
      ∃ k, Whole k rd ∧ Reader.receive k torn stream rd ≠ none := by
  cases h with
  | @start r h =>
    cases r with
    | done b =>
      rw [Recv.eval] at h
      split_ifs at h with hnil
      exact Or.inl ⟨by rw [Option.some.inj h], hnil⟩
    | fatal => exact absurd h (Option.some_ne_none _).symm
    | word f =>
      obtain ⟨hlen, -⟩ := eval_word h
      refine Or.inr ⟨4, rfl, ?_⟩
      rw [Reader.receive, if_pos ⟨by decide, Nat.le_refl 4, hlen⟩]
      dsimp only
      split_ifs <;> exact Option.some_ne_none _
    | bytes n ask f =>
      obtain ⟨⟨hn, hle, hask, -⟩, -⟩ := eval_bytes h
      refine Or.inr ⟨1, trivial, ?_⟩
      rw [Reader.receive, if_neg (by rw [List.length_nil]; omega),
        if_pos ⟨by decide, by rw [List.length_nil]; omega, by omega⟩]
      dsimp only
      split_ifs <;> exact Option.some_ne_none _
  | @inside n ask f got hgot h =>
    obtain ⟨⟨hn, hle, hask, -⟩, -⟩ := eval_bytes h
    rw [List.length_append] at hle
    refine Or.inr ⟨1, trivial, ?_⟩
    rw [Reader.receive, if_neg (by omega), if_pos ⟨by decide, by omega, by omega⟩]
    dsimp only
    split_ifs <;> exact Option.some_ne_none _

theorem Expects.not_failed (h : Expects stream a rd) : rd.failed = false := by
  cases h with
  | @start r h =>
    cases r with
    | fatal => exact absurd h (Option.some_ne_none _).symm
    | _ => rfl
  | inside => rfl

theorem not_ended_of_receive (h : receive k torn stream rd ≠ none) : rd.ended = false := by
  obtain ⟨r, got⟩ := rd
  cases r with
  | done b => exact absurd rfl h
  | fatal => exact absurd rfl h
  | word f => rfl
  | bytes n ask f => rfl

theorem Expects.ended (h : Expects stream a rd) (hended : rd.ended = true) :
    rd = .reading (.done a) [] ∧ stream = [] := by
  obtain hdone | ⟨k, -, hrecv⟩ := h.exists_receive 0
  · exact hdone
  · rw [not_ended_of_receive hrecv] at hended
    exact absurd hended Bool.false_ne_true

end Reader

/-- The loop for `n` bytes in front of a message of that length. -/
theorem Recv.eval_upTo {n ask : ℕ} {f : List Byte → Recv α} {msg : List Byte} {b : Option α}
    (hn : msg.length = n) (hask : n ≤ ask) (h : (f msg).eval [] = b) :
    (Recv.upTo n ask f).eval msg = b := by
  rw [Recv.upTo]
  split_ifs with hzero
  · obtain rfl := List.length_eq_zero_iff.mp (hn.trans hzero)
    exact h
  · rw [Recv.eval, if_pos ⟨Nat.pos_of_ne_zero hzero, by omega, hask, Or.inr hn⟩,
      List.take_of_length_le (by omega), List.drop_eq_nil_of_le (by omega), h]

theorem Recv.eval_word (f : BitVec 32 → Recv α) (x : BitVec 32) (rest : List Byte) :
    (Recv.word f).eval (le32 x ++ rest) = (f x).eval rest := by
  rw [Recv.eval, if_pos (by rw [List.length_append, length_le32]; omega), readLe32_append]
  rfl

end Lib
