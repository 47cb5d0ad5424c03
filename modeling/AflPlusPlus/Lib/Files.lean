import Mathlib.Algebra.Group.Int.Defs
import Mathlib.Logic.Function.Basic

/-!
# Replacing a file

A directory tree maps a path to the contents of the file there. A file is replaced by writing a
temporary one and renaming it; each of the system calls may fail. `replaceFile` keeps all other
files, and the file itself is either the new one or what it was.
-/

namespace Lib

variable {π β : Type*} [DecidableEq π]

abbrev Files (π β : Type*) := π → Option (List β)

/-- What the system calls return: whether `open` succeeds, the result of `write`, and whether
`rename` succeeds. -/
structure ReplaceIo where
  opened : Bool
  written : ℤ
  renamed : Bool

/-- `rename` leaves a file that is renamed to itself alone. -/
def rename (files : Files π β) (old new : π) : Files π β :=
  if old = new then files else Function.update (Function.update files new (files old)) old none

def unlink (files : Files π β) (path : π) : Files π β := Function.update files path none

/-- Write `data` to `temp` and rename it to `path`. The result says whether the data was written; a
`rename` that fails is not looked at. -/
def replaceFile (io : ReplaceIo) (temp path : π) (data : List β) (files : Files π β) :
    Bool × Files π β :=
  if io.opened then
    let files := Function.update files temp (some (data.take io.written.toNat))
    if io.written ≠ data.length then (false, unlink files temp)
    else if io.renamed then (true, rename files temp path)
    else (true, unlink files temp)
  else (false, files)

/-- All three calls did what they were asked for. -/
def ReplaceIo.Stores (io : ReplaceIo) (data : List β) : Prop :=
  io.opened = true ∧ io.written = data.length ∧ io.renamed = true

instance (io : ReplaceIo) (data : List β) : Decidable (io.Stores data) :=
  inferInstanceAs (Decidable (_ ∧ _ ∧ _))

variable {io : ReplaceIo} {temp path : π} {data : List β} {files : Files π β}

theorem replaceFile_other {p : π} (htemp : p ≠ temp) (hpath : p ≠ path) :
    (replaceFile io temp path data files).2 p = files p := by
  have hwrite : ∀ x, Function.update files temp x p = files p :=
    fun x => Function.update_of_ne htemp x files
  have hunlink : ∀ files' : Files π β, unlink files' temp p = files' p := by
    intro files'
    rw [unlink, Function.update_of_ne htemp]
  have hrename : ∀ files' : Files π β, rename files' temp path p = files' p := by
    intro files'
    unfold rename
    split
    · rfl
    · rw [Function.update_of_ne htemp, Function.update_of_ne hpath]
  unfold replaceFile
  dsimp only
  split
  · split
    · exact (hunlink _).trans (hwrite _)
    · split
      · exact (hrename _).trans (hwrite _)
      · exact (hunlink _).trans (hwrite _)
  · rfl

theorem replaceFile_path (hne : path ≠ temp) :
    (replaceFile io temp path data files).2 path =
      if io.Stores data then some data else files path := by
  have hunlink : ∀ x, unlink (Function.update files temp x) temp path = files path := by
    intro x
    rw [unlink, Function.update_of_ne hne, Function.update_of_ne hne]
  unfold replaceFile
  dsimp only
  by_cases hopened : io.opened = true
  · rw [if_pos hopened]
    by_cases hwritten : io.written = data.length
    · rw [if_neg (not_not.mpr hwritten)]
      by_cases hrenamed : io.renamed = true
      · have hstores : io.Stores data := ⟨hopened, hwritten, hrenamed⟩
        rw [if_pos hrenamed, if_pos hstores]
        dsimp only
        rw [rename, if_neg hne.symm,
          Function.update_of_ne hne, Function.update_self, Function.update_self, hwritten,
          Int.toNat_natCast, List.take_length]
      · have hstores : ¬ io.Stores data := fun h => hrenamed h.2.2
        rw [if_neg hrenamed, if_neg hstores]
        exact hunlink _
    · have hstores : ¬ io.Stores data := fun h => hwritten h.2.1
      rw [if_pos hwritten, if_neg hstores]
      exact hunlink _
  · have hstores : ¬ io.Stores data := fun h => hopened h.1
    rw [if_neg hopened, if_neg hstores]

end Lib
