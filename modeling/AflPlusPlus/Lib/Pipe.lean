import AflPlusPlus.Lib.Memory

/-!
# Byte pipes

A pipe is the list of bytes that were written into it and not read yet. Numbers of 32 bits travel as
four bytes in memory order. The lemmas are about the two halves of one equation: what a reader still
expects is what is in the pipe followed by what the writer still has to send.
-/

namespace Lib

abbrev Pipe := List Byte

/-- The four bytes of a number in memory. -/
def le32 (x : BitVec 32) : List Byte := [wordByte x 0, wordByte x 1, wordByte x 2, wordByte x 3]

/-- The number in the first four bytes. -/
def readLe32 (bs : List Byte) : BitVec 32 := word 32 (fun i => bs.getD i 0) 0

/-- Write all of `bs`, if the pipe has room for it. -/
def Pipe.send (cap : ℕ) (p : Pipe) (bs : List Byte) : Option Pipe :=
  if p.length + bs.length ≤ cap then some (p ++ bs) else none

/-- Read a number. The read waits while the pipe is empty; what it returns is `none` when fewer than
four bytes were there. -/
def Pipe.recv32 (p : Pipe) : Option (Option (BitVec 32) × Pipe) :=
  if p = [] then none
  else if p.length < 4 then some (none, [])
  else some (some (readLe32 p), p.drop 4)

@[simp]
theorem length_le32 (x : BitVec 32) : (le32 x).length = 4 := rfl

theorem le32_ne_nil (x : BitVec 32) : le32 x ≠ [] := List.cons_ne_nil _ _

/-- A number is read back as it was written. -/
theorem readLe32_append (x : BitVec 32) (rest : List Byte) : readLe32 (le32 x ++ rest) = x := by
  refine eq_of_wordByte (by decide) fun b hb => ?_
  rw [readLe32, wordByte_word (by decide) _ _ hb]
  have hcases : b = 0 ∨ b = 1 ∨ b = 2 ∨ b = 3 := by omega
  rcases hcases with rfl | rfl | rfl | rfl <;> rfl

/-- When the reader expects a number and at least four bytes are there, the number is. -/
theorem Pipe.split_le32 {p : Pipe} {x : BitVec 32} {rest later : List Byte}
    (h : le32 x ++ rest = p ++ later) (hlen : 4 ≤ p.length) :
    ∃ p', p = le32 x ++ p' ∧ rest = p' ++ later := by
  rcases List.append_eq_append_iff.mp h with ⟨a, hp, hrest⟩ | ⟨c, hx, hlater⟩
  · exact ⟨a, hp, hrest⟩
  · have hc : c = [] := by
      have := congrArg List.length hx
      rw [length_le32, List.length_append] at this
      exact List.length_eq_zero_iff.mp (by omega)
    subst hc
    exact ⟨[], by simpa using hx.symm, by simpa using hlater.symm⟩

theorem Pipe.recv32_append (x : BitVec 32) (p : Pipe) :
    Pipe.recv32 (le32 x ++ p) = some (some x, p) := by
  rw [recv32, if_neg (by simp [le32]), if_neg (by simp), readLe32_append]
  rfl

/-- When the reader takes `n` bytes of what it expects. -/
theorem Pipe.split_take {p : Pipe} {data rest later : List Byte} {n : ℕ}
    (h : data ++ rest = p ++ later) (hn : n ≤ p.length) (hdata : n ≤ data.length) :
    p.take n = data.take n ∧ data.drop n ++ rest = p.drop n ++ later := by
  have htake := congrArg (List.take n) h
  have hdrop := congrArg (List.drop n) h
  rw [List.take_append_of_le_length hdata, List.take_append_of_le_length hn] at htake
  rw [List.drop_append_of_le_length hdata, List.drop_append_of_le_length hn] at hdrop
  exact ⟨htake.symm, hdrop⟩

end Lib
