import AflPlusPlus.Cmin.Traces
import AflPlusPlus.Lib.Counter
import AflPlusPlus.Lib.WorkerPool

/-!
# The workers of corpus minimization

Every worker of `afl-cmin.py` keeps, for each tuple, the least index of a file with it among the
files it was given, counts the tuples, and writes the traces of files that improved an entry into
its pack. Whichever worker gets which batch and in whatever order the messages arrive, the main
process ends up with the least index over all files, the number of files for every tuple, and a
readable trace for each of these files.
-/

namespace AflPlusPlus.Cmin
open Lib

/-- What a worker keeps. Positions in the pack are in bytes. -/
structure WorkerState where
  m : ℕ → ℕ
  counter : Counter ℕ
  crashes : List ℕ
  tracePack : List ℕ
  packPos : ℕ

/-- `(idx, self.idx, pack_pos, tuple_count)`. -/
structure Progress where
  idx : ℕ
  worker : ℕ
  pos : ℕ
  tupleCount : ℕ

/-- The loop over the tuples of a file: the new `m`, and `used`. -/
def improve (idx : ℕ) (m : ℕ → ℕ) : List ℕ → (ℕ → ℕ) × Bool
  | [] => (m, false)
  | t :: r =>
    if idx < m t then ((improve idx (Function.update m t idx) r).1, true) else improve idx m r

/-- One file in `Worker.run`. -/
def processJob (crashDir : Bool) (itemsize w : ℕ) (s : WorkerState) (job : Job) :
    WorkerState × Option Progress :=
  let counter := s.counter.update job.r
  let crashes := if job.crash then s.crashes ++ [job.idx] else s.crashes
  let improved :=
    if !job.crash || !crashDir then improve job.idx s.m job.r else (s.m, false)
  if improved.2 then
    (⟨improved.1, counter, crashes, s.tracePack ++ job.r,
        s.packPos + job.r.length * itemsize⟩,
      some ⟨job.idx, w, s.packPos, job.r.length⟩)
  else (⟨improved.1, counter, crashes, s.tracePack, s.packPos⟩, none)

/-- `detect_type_code`: the item size of the smallest array type for numbers up to `size`. -/
def detectTypeCode (size : ℕ) : ℕ :=
  if size < 256 then 1 else if size < 256 ^ 2 then 2 else if size < 256 ^ 4 then 4 else 8

def maxFileIndex (files : ℕ) : ℕ := 256 ^ detectTypeCode files - 1

/-- Read `tupleCount` items from a pack. -/
def readPack (itemsize : ℕ) (pack : List ℕ) (pos tupleCount : ℕ) : List ℕ :=
  (pack.drop (pos / itemsize)).take tupleCount

variable {crashDir : Bool} {itemsize w idx last : ℕ} {m : ℕ → ℕ} {r : List ℕ} {js : List Job}
  {s : WorkerState} {sent : List (Option Progress)} {job : Job}

/-! ### One worker -/

theorem improve_apply (t : ℕ) :
    (improve idx m r).1 t = if t ∈ r then min (m t) idx else m t := by
  induction r generalizing m with
  | nil => rfl
  | cons u r ih =>
    rw [improve]
    split_ifs with hlt hmem hmem
    · rw [ih]
      by_cases htu : t = u
      · subst htu
        rw [Function.update_self]
        split_ifs <;> omega
      · rw [Function.update_of_ne htu, if_pos ((List.mem_cons.mp hmem).resolve_left htu)]
    · rw [List.mem_cons, not_or] at hmem
      rw [ih, Function.update_of_ne hmem.1, if_neg hmem.2]
    · rw [ih]
      split_ifs with htr
      · rfl
      · obtain rfl := (List.mem_cons.mp hmem).resolve_right htr
        omega
    · rw [ih, if_neg fun htr => hmem (List.mem_cons_of_mem u htr)]

theorem improve_used : (improve idx m r).2 = true ↔ ∃ t ∈ r, idx < m t := by
  induction r generalizing m with
  | nil => simp [improve]
  | cons u r ih =>
    rw [improve]
    simp only [List.mem_cons, or_and_right, exists_or, exists_eq_left]
    split_ifs with hlt
    · exact iff_of_true rfl (Or.inl hlt)
    · rw [ih, or_iff_right hlt]

/-- What a worker has done after the files `js`; `last` is the index that stands for no file. -/
structure Processed (itemsize last w : ℕ) (js : List Job) (s : WorkerState)
    (sent : List (Option Progress)) : Prop where
  le : ∀ job ∈ js, ∀ t ∈ job.r, s.m t ≤ job.idx
  attained : ∀ t, s.m t = last ∨ ∃ job ∈ js, t ∈ job.r ∧ s.m t = job.idx
  count : ∀ t, s.counter.count t = Pool.weigh (fun job => job.r.count t) js
  keys : ∀ t, t ∈ s.counter.keys ↔ ∃ job ∈ js, t ∈ job.r
  crashes : s.crashes = (js.filter (·.crash)).map (·.idx)
  packPos : s.packPos = s.tracePack.length * itemsize
  sound : ∀ p, some p ∈ sent → p.worker = w ∧ ∃ job ∈ js, job.idx = p.idx ∧
    p.pos / itemsize + p.tupleCount ≤ s.tracePack.length ∧
    readPack itemsize s.tracePack p.pos p.tupleCount = job.r
  complete : ∀ t, s.m t ≠ last → ∃ p, some p ∈ sent ∧ p.idx = s.m t

theorem readPack_append {pack : List ℕ} {pos k : ℕ} (h : pos / itemsize + k ≤ pack.length)
    (r : List ℕ) : readPack itemsize (pack ++ r) pos k = readPack itemsize pack pos k := by
  rw [readPack, readPack, List.drop_append_of_le_length (by omega),
    List.take_append_of_le_length (by rw [List.length_drop]; omega)]

theorem readPack_end (hsize : 0 < itemsize) (pack r : List ℕ) :
    readPack itemsize (pack ++ r) (pack.length * itemsize) r.length = r := by
  rw [readPack, Nat.mul_div_cancel _ hsize, List.drop_left, List.take_length]

/-- A crash brings no tuples, so `crash_dir` makes no difference here. -/
theorem improved_eq (hcrash : job.crash = true → job.r = []) :
    (if !job.crash || !crashDir then improve job.idx s.m job.r else (s.m, false)) =
      improve job.idx s.m job.r := by
  split_ifs with hif
  · rfl
  · rw [Bool.not_eq_true, Bool.or_eq_false_iff, Bool.not_eq_false'] at hif
    rw [hcrash hif.1]
    rfl

theorem processJob_used (hcrash : job.crash = true → job.r = [])
    (hused : ∃ t ∈ job.r, job.idx < s.m t) :
    processJob crashDir itemsize w s job =
      (⟨(improve job.idx s.m job.r).1, s.counter.update job.r,
          if job.crash then s.crashes ++ [job.idx] else s.crashes, s.tracePack ++ job.r,
          s.packPos + job.r.length * itemsize⟩,
        some ⟨job.idx, w, s.packPos, job.r.length⟩) := by
  simp only [processJob, improved_eq hcrash]
  rw [if_pos (improve_used.mpr hused)]

theorem processJob_unused (hcrash : job.crash = true → job.r = [])
    (hused : ¬ ∃ t ∈ job.r, job.idx < s.m t) :
    processJob crashDir itemsize w s job =
      (⟨(improve job.idx s.m job.r).1, s.counter.update job.r,
          if job.crash then s.crashes ++ [job.idx] else s.crashes, s.tracePack, s.packPos⟩,
        none) := by
  simp only [processJob, improved_eq hcrash]
  rw [if_neg fun h => hused (improve_used.mp h)]

/-- The entries of `m` after one more file. -/
theorem Processed.improve (h : Processed itemsize last w js s sent) (job : Job) :
    (∀ j ∈ js ++ [job], ∀ t ∈ j.r, (improve job.idx s.m job.r).1 t ≤ j.idx) ∧
      ∀ t, (improve job.idx s.m job.r).1 t = last ∨
        ∃ j ∈ js ++ [job], t ∈ j.r ∧ (improve job.idx s.m job.r).1 t = j.idx := by
  refine ⟨fun j hj t ht => ?_, fun t => ?_⟩
  · rw [improve_apply]
    obtain hj | hj := List.mem_append.mp hj
    · have := h.le j hj t ht
      split_ifs <;> omega
    · rw [List.mem_singleton.mp hj] at ht ⊢
      rw [if_pos ht]
      exact min_le_right _ _
  · rw [improve_apply]
    by_cases hnew : t ∈ job.r ∧ job.idx < s.m t
    · refine Or.inr ⟨job, List.mem_append_right _ (List.mem_singleton_self job), hnew.1, ?_⟩
      rw [if_pos hnew.1]
      omega
    · have hsame : (if t ∈ job.r then min (s.m t) job.idx else s.m t) = s.m t := by
        split_ifs with ht
        · have : ¬ job.idx < s.m t := fun hlt => hnew ⟨ht, hlt⟩
          omega
        · rfl
      rw [hsame]
      obtain hlast | ⟨j, hj, hmem⟩ := h.attained t
      · exact Or.inl hlast
      · exact Or.inr ⟨j, List.mem_append_left _ hj, hmem⟩

/-- What does not depend on whether the file was used. -/
theorem Processed.tallies (h : Processed itemsize last w js s sent) (job : Job) :
    (∀ t, (s.counter.update job.r).count t =
        Pool.weigh (fun job => job.r.count t) (js ++ [job])) ∧
      (∀ t, t ∈ (s.counter.update job.r).keys ↔ ∃ j ∈ js ++ [job], t ∈ j.r) ∧
      (if job.crash then s.crashes ++ [job.idx] else s.crashes) =
        ((js ++ [job]).filter (·.crash)).map (·.idx) := by
  refine ⟨fun t => ?_, fun t => ?_, ?_⟩
  · rw [Counter.count_update, h.count, Pool.weigh_append, Pool.weigh_cons, Pool.weigh_nil,
      Nat.add_zero]
  · rw [Counter.mem_keys_update, h.keys]
    simp only [List.mem_append, List.mem_singleton, or_and_right, exists_or, exists_eq_left]
  · rw [List.filter_append, List.map_append, ← h.crashes]
    cases hcrash : job.crash with
    | false => simp [hcrash]
    | true => simp [hcrash]

/-- The step of `Worker.run` for one more file. -/
theorem Processed.step (h : Processed itemsize last w js s sent) (hsize : 0 < itemsize)
    (hcrash : job.crash = true → job.r = []) :
    Processed itemsize last w (js ++ [job]) (processJob crashDir itemsize w s job).1
      (sent ++ [(processJob crashDir itemsize w s job).2]) := by
  obtain ⟨hle, hattained⟩ := h.improve job
  obtain ⟨hcount, hkeys, hcrashes⟩ := h.tallies job
  by_cases hused : ∃ t ∈ job.r, job.idx < s.m t
  · rw [processJob_used hcrash hused]
    refine ⟨hle, hattained, hcount, hkeys, hcrashes, ?_, fun p hp => ?_, fun t ht => ?_⟩
    · rw [List.length_append, Nat.add_mul, h.packPos]
    · obtain hp | hp := List.mem_append.mp hp
      · obtain ⟨hworker, j, hj, hidx, hin, hread⟩ := h.sound p hp
        refine ⟨hworker, j, List.mem_append_left _ hj, hidx, ?_, ?_⟩
        · rw [List.length_append]
          omega
        · rw [readPack_append hin, hread]
      · obtain rfl := Option.some.inj (List.mem_singleton.mp hp)
        refine ⟨rfl, job, List.mem_append_right _ (List.mem_singleton_self job), rfl, ?_, ?_⟩
        · rw [h.packPos, Nat.mul_div_cancel _ hsize, List.length_append]
        · rw [h.packPos]
          exact readPack_end hsize s.tracePack job.r
    · dsimp only at ht ⊢
      rw [improve_apply] at ht ⊢
      by_cases hnew : t ∈ job.r ∧ job.idx < s.m t
      · refine ⟨_, List.mem_append_right _ (List.mem_singleton_self _), ?_⟩
        rw [if_pos hnew.1]
        exact (Nat.min_eq_right (Nat.le_of_lt hnew.2)).symm
      · have hsame : (if t ∈ job.r then min (s.m t) job.idx else s.m t) = s.m t := by
          split_ifs with hmem
          · exact Nat.min_eq_left (Nat.le_of_not_lt fun hlt => hnew ⟨hmem, hlt⟩)
          · rfl
        rw [hsame] at ht ⊢
        obtain ⟨p, hp, hidx⟩ := h.complete t ht
        exact ⟨p, List.mem_append_left _ hp, hidx⟩
  · rw [processJob_unused hcrash hused]
    have hsame (t : ℕ) : (Cmin.improve job.idx s.m job.r).1 t = s.m t := by
      rw [improve_apply]
      split_ifs with hmem
      · exact Nat.min_eq_left (Nat.le_of_not_lt fun hlt => hused ⟨t, hmem, hlt⟩)
      · rfl
    refine ⟨hle, hattained, hcount, hkeys, hcrashes, h.packPos, fun p hp => ?_, fun t ht => ?_⟩
    · obtain hp | hp := List.mem_append.mp hp
      · obtain ⟨hworker, j, hj, hidx⟩ := h.sound p hp
        exact ⟨hworker, j, List.mem_append_left _ hj, hidx⟩
      · exact absurd (List.mem_singleton.mp hp) (Option.some_ne_none p)
    · dsimp only at ht ⊢
      rw [hsame] at ht ⊢
      obtain ⟨p, hp, hidx⟩ := h.complete t ht
      exact ⟨p, List.mem_append_left _ hp, hidx⟩

def initialState (last : ℕ) : WorkerState := ⟨fun _ => last, Counter.empty, [], [], 0⟩

/-- The state of a worker after any list of files. -/
theorem processed_runJobs (crashDir : Bool) (w : ℕ) (hsize : 0 < itemsize)
    (hcrash : ∀ job ∈ js, job.crash = true → job.r = []) (last : ℕ) :
    Processed itemsize last w js
      (runJobs (processJob crashDir itemsize w) (initialState last) js).1
      (runJobs (processJob crashDir itemsize w) (initialState last) js).2 := by
  induction js using List.reverseRecOn with
  | nil =>
    refine ⟨by simp, fun _ => Or.inl rfl, fun _ => rfl, by simp [initialState, runJobs],
      rfl, by simp [initialState, runJobs], by simp [runJobs], fun t ht => absurd rfl ht⟩
  | append_singleton js job ih =>
    have hbefore := ih fun j hj => hcrash j (List.mem_append_left _ hj)
    rw [runJobs_append]
    exact hbefore.step hsize (hcrash job (by simp))

end AflPlusPlus.Cmin
