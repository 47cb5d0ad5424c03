import AflPlusPlus.Cmin.Workers
import Mathlib.Data.List.Sort

/-!
# Corpus minimization

The main process of `afl-cmin.py`: duplicates are dropped, files are sorted by size and dealt out to
the workers, and from their results files are saved until every tuple is covered. The saved files
cover every tuple of every input, each of them is a smallest file for a tuple that no file saved
before it has, and no schedule of the workers leads to an error or blocks.

Left out are `--no-dedup`, with which `hash_list` is never bound, the test run on the first file,
and the `IndexError` of a worker that meets a tuple of an edge beyond the map size it was told.
-/

namespace AflPlusPlus.Cmin
open Lib

/-- The command line, and `AFL_MAP_SIZE` as the workers are told. -/
structure Args where
  workers : ℕ
  crashDir : Bool
  edgeMode : Bool
  aflMapSize : Option ℕ

/-- `afl_map_size or 65536`. -/
def Args.mapSize (args : Args) : ℕ :=
  match args.aflMapSize with
  | none => 65536
  | some n => if n = 0 then 65536 else n

/-- The item size of the arrays of tuples: type `I` unless the map size is known. -/
def Args.itemsize (args : Args) : ℕ :=
  match args.aflMapSize with
  | none => 4
  | some n => if n = 0 then 4 else detectTypeCode (n * 9)

/-- `dedup`: the first file with each hash. -/
def dedup : List (List Byte) → List Input → List Input
  | _, [] => []
  | seen, file :: files =>
    if seen.contains file.digest then dedup seen files
    else file :: dedup (file.digest :: seen) files

/-- The files that take part, by rising size. -/
def prepare (found : List Input) : List Input :=
  (dedup [] found).insertionSort fun a b => a.size ≤ b.size

/-- `batched`, with enough fuel. -/
def batchedFrom {α : Type} (n : ℕ) : ℕ → List α → List (List α)
  | 0, _ => []
  | _ + 1, [] => []
  | fuel + 1, a :: l => (a :: l).take n :: batchedFrom n fuel ((a :: l).drop n)

def batched {α : Type} (l : List α) (n : ℕ) : List (List α) := batchedFrom n l.length l

/-- `enumerate(files)`. -/
def enumerate (files : List Input) : List (ℕ × Input) := files.zipIdx.map Prod.swap

variable (args : Args) (files : List Input)

def chunk : ℕ := max 1 (min 128 (files.length / args.workers))

def batches : List (List (ℕ × Input)) := batched (enumerate files) (chunk args files)

abbrev CminPool := Pool Job WorkerState (Option Progress)

/-- The pool when the workers start. -/
def startPool : CminPool :=
  Pool.start args.workers (initialState (maxFileIndex files.length))
    ((batches args files).map (aflShowmap args.edgeMode args.mapSize))

/-- One step of the workers or of the main process. -/
def poolStep : CminPool → Pool.Action → Option CminPool :=
  Pool.step args.workers files.length fun w => processJob args.crashDir args.itemsize w

/-- The workers have reached `p`. -/
def PoolReaches (p : CminPool) : Prop :=
  Reaches (poolStep args files) (fun _ _ => True) (startPool args files) p

variable (p : CminPool)

/-- `best_idxes`. -/
def bestIdx (t : ℕ) : ℕ := ((p.collected.map fun w => (p.workers w).state.m t).min?).getD 0

/-- The sum of the workers' counters. -/
def allCounter : Counter ℕ :=
  p.collected.foldl (fun c w => c.merge (p.workers w).state.counter) Counter.empty

/-- `trace_info[idx]`: of several entries the last one counts. -/
def traceInfo (idx : ℕ) : Option Progress :=
  (p.received.filterMap id).reverse.find? (·.idx = idx)

/-- The trace of a file from the packs; `none` for a wrong index or a missing entry. -/
def loadTrace (idx : ℕ) : Option (List ℕ) :=
  if idx < files.length then
    (traceInfo p idx).map fun q =>
      readPack args.itemsize (p.workers q.worker).state.tracePack q.pos q.tupleCount
  else none

/-- The loop over tuples that one file has. -/
def saveUnique (load : ℕ → Option (List ℕ)) (best : ℕ → ℕ) :
    List (ℕ × ℕ) → List ℕ → Option (List ℕ)
  | [], saved => some saved
  | (t, c) :: rest, saved =>
    if c ≠ 1 then saveUnique load best rest saved
    else if best t ∈ saved then saveUnique load best rest saved
    else
      match load (best t) with
      | none => none
      | some _ => saveUnique load best rest (saved ++ [best t])

/-- The loop over the tuples that are left, rare ones first. -/
def saveRest (load : ℕ → Option (List ℕ)) (best : ℕ → ℕ) :
    List (ℕ × ℕ) → List ℕ → List ℕ → Option (List ℕ)
  | [], saved, _ => some saved
  | (t, _) :: rest, saved, alreadyHave =>
    if t ∈ alreadyHave then saveRest load best rest saved alreadyHave
    else
      match load (best t) with
      | none => none
      | some trace => saveRest load best rest (saved ++ [best t]) (alreadyHave ++ trace)

/-- The indices of the saved files; `none` when a lookup fails. -/
def saveFiles : Option (List ℕ) :=
  let load := loadTrace args files p
  let allUnique := (allCounter p).mostCommon
  match saveUnique load (bestIdx p) allUnique [] with
  | none => none
  | some saved =>
    -- the traces that the `CombineTraceWorker`s read
    let alreadyHave := saved.flatMap fun idx => (load idx).getD []
    saveRest load (bestIdx p) allUnique.reverse saved alreadyHave

/-- The crashes reported by the workers. -/
def allCrashes : List ℕ := p.collected.flatMap fun w => (p.workers w).state.crashes

/-! ### Batches and jobs -/

/-- The file with this index has the tuple. -/
def Has (t idx : ℕ) : Prop :=
  ∃ file, files[idx]? = some file ∧ t ∈ file.tuples args.edgeMode args.mapSize

/-- All files of the corpus as the workers see them. -/
def allJobs : List Job :=
  (enumerate files).map fun e => e.2.job args.edgeMode args.mapSize e.1

variable {args files p}

theorem flatten_batchedFrom {α : Type} {n fuel : ℕ} (hn : 0 < n) (l : List α)
    (h : l.length ≤ fuel) : (batchedFrom n fuel l).flatten = l := by
  induction fuel generalizing l with
  | zero => rw [List.eq_nil_of_length_eq_zero (Nat.le_zero.mp h)]; rfl
  | succ fuel ih =>
    cases l with
    | nil => rfl
    | cons a l =>
      rw [batchedFrom, List.flatten_cons, ih, List.take_append_drop]
      rw [List.length_drop]
      omega

theorem flatten_jobs (hnames : ∀ batch ∈ batches args files, (batch.map (·.2.basename)).Nodup) :
    ((batches args files).map (aflShowmap args.edgeMode args.mapSize)).flatten =
      allJobs args files := by
  have hmap : (batches args files).map (aflShowmap args.edgeMode args.mapSize) =
      (batches args files).map
        (List.map fun e => e.2.job args.edgeMode args.mapSize e.1) :=
    List.map_congr_left fun batch hbatch => aflShowmap_eq (hnames batch hbatch)
  have hpos : 0 < chunk args files := Nat.lt_of_lt_of_le Nat.one_pos (le_max_left _ _)
  rw [hmap, ← List.map_flatten, batches, batched, flatten_batchedFrom hpos _ le_rfl, allJobs]

/-- There is a job for every file, also when names repeat in a batch. -/
theorem length_flatten_jobs :
    ((batches args files).map (aflShowmap args.edgeMode args.mapSize)).flatten.length =
      files.length := by
  have hpos : 0 < chunk args files := Nat.lt_of_lt_of_le Nat.one_pos (le_max_left _ _)
  have hlen : (List.length ∘ aflShowmap args.edgeMode args.mapSize) = List.length :=
    funext fun batch => length_aflShowmap batch
  rw [List.length_flatten, List.map_map, hlen, ← List.length_flatten, batches, batched,
    flatten_batchedFrom hpos _ le_rfl, enumerate, List.length_map, List.length_zipIdx]

theorem mem_allJobs {job : Job} : job ∈ allJobs args files ↔
    ∃ file, files[job.idx]? = some file ∧ job = file.job args.edgeMode args.mapSize job.idx := by
  rw [allJobs, enumerate, List.map_map, List.mem_map]
  constructor
  · rintro ⟨⟨file, idx⟩, hmem, rfl⟩
    exact ⟨file, List.mem_zipIdx_iff_getElem?.mp hmem, rfl⟩
  · rintro ⟨file, hfile, hjob⟩
    exact ⟨(file, job.idx), List.mem_zipIdx_iff_getElem?.mpr hfile, hjob.symm⟩

theorem has_iff {t idx : ℕ} : Has args files t idx ↔
    ∃ job ∈ allJobs args files, t ∈ job.r ∧ job.idx = idx := by
  constructor
  · rintro ⟨file, hfile, ht⟩
    exact ⟨file.job args.edgeMode args.mapSize idx, mem_allJobs.mpr ⟨file, hfile, rfl⟩, ht, rfl⟩
  · rintro ⟨job, hjob, ht, rfl⟩
    obtain ⟨file, hfile, hsame⟩ := mem_allJobs.mp hjob
    rw [hsame] at ht
    exact ⟨file, hfile, ht⟩

theorem crash_of_mem_allJobs {job : Job} (h : job ∈ allJobs args files) :
    job.crash = true ↔ job.r = [] := by
  obtain ⟨file, -, hjob⟩ := mem_allJobs.mp h
  rw [hjob]
  exact List.isEmpty_iff

theorem Has.lt {t idx : ℕ} (h : Has args files t idx) : idx < files.length := by
  obtain ⟨file, hfile, -⟩ := h
  exact (List.getElem?_eq_some_iff.mp hfile).1

theorem le_maxFileIndex {n : ℕ} (h : n < 2 ^ 64) : n ≤ maxFileIndex n := by
  rw [maxFileIndex, detectTypeCode]
  split_ifs <;> omega

theorem itemsize_pos (args : Args) : 0 < args.itemsize := by
  rw [Args.itemsize]
  split
  · decide
  · rw [detectTypeCode]
    split_ifs <;> decide

/-! ### What the main process collects -/

/-- What the workers' results amount to, whoever did what. -/
structure Collected (args : Args) (files : List Input) (p : CminPool) : Prop where
  best_le : ∀ t idx, Has args files t idx → bestIdx p t ≤ idx
  best_has : ∀ t idx, Has args files t idx → Has args files t (bestIdx p t)
  keys : ∀ t, t ∈ (allCounter p).keys ↔ ∃ idx, Has args files t idx
  count : ∀ t, (allCounter p).count t =
    files.countP fun file => t ∈ file.tuples args.edgeMode args.mapSize
  load : ∀ t idx, Has args files t idx → ∃ file, files[bestIdx p t]? = some file ∧
    loadTrace args files p (bestIdx p t) = some (file.tuples args.edgeMode args.mapSize)
  crashes : ∀ idx, idx ∈ allCrashes p ↔
    ∃ file, files[idx]? = some file ∧ file.tuples args.edgeMode args.mapSize = []

/-- The facts about the pool that the library gives at the end of a run. -/
structure Finished (args : Args) (files : List Input) (p : CminPool) : Prop where
  processed : ∀ w, w < args.workers → Processed args.itemsize (maxFileIndex files.length) w
    (p.workers w).handled (p.workers w).state (p.workers w).sent
  jobs : ∀ job, job ∈ allJobs args files ↔ ∃ w, w < args.workers ∧ job ∈ (p.workers w).handled
  weigh : ∀ g, total args.workers (fun k => Pool.weigh g k.handled) p.workers =
    Pool.weigh g (allJobs args files)
  received : ∀ q, q ∈ p.received ↔ ∃ w, w < args.workers ∧ q ∈ (p.workers w).sent
  collected : p.collected.Perm (List.range args.workers)

theorem length_allJobs : (allJobs args files).length = files.length := by
  rw [allJobs, enumerate, List.length_map, List.length_map, List.length_zipIdx]

theorem finished_of_reaches (hW : 0 < args.workers)
    (hnames : ∀ batch ∈ batches args files, (batch.map (·.2.basename)).Nodup)
    (hrun : PoolReaches args files p) (hall : p.collected.length = args.workers) :
    Finished args files p := by
  have hjobs := flatten_jobs hnames
  obtain ⟨hworkers, hhandled, hreceived, hcollected⟩ := Pool.final_of_reaches hW
    (by rw [hjobs, length_allJobs]) hrun hall
  rw [hjobs] at hhandled
  have hmem := Pool.mem_iff_of_weigh hhandled
  refine ⟨fun w hw => ?_, hmem, hhandled, Pool.mem_iff_of_weigh fun g => (hreceived g).symm,
    hcollected⟩
  have hcrash : ∀ job ∈ (p.workers w).handled, job.crash = true → job.r = [] :=
    fun job hjob => (crash_of_mem_allJobs ((hmem job).mpr ⟨w, hw, hjob⟩)).mp
  have hprocessed := processed_runJobs args.crashDir w (itemsize_pos args) hcrash
    (maxFileIndex files.length)
  rw [hworkers w] at hprocessed
  exact hprocessed

theorem Finished.mem_collected (h : Finished args files p) {w : ℕ} :
    w ∈ p.collected ↔ w < args.workers := by
  rw [h.collected.mem_iff, List.mem_range]

/-- The least entry over the workers. -/
theorem Finished.bestIdx_spec (h : Finished args files p) (hW : 0 < args.workers) (t : ℕ) :
    (∀ w, w < args.workers → bestIdx p t ≤ (p.workers w).state.m t) ∧
      ∃ w, w < args.workers ∧ bestIdx p t = (p.workers w).state.m t := by
  have hne : (p.collected.map fun w => (p.workers w).state.m t) ≠ [] := by
    rw [Ne, List.map_eq_nil_iff]
    exact List.ne_nil_of_mem (h.mem_collected.mpr hW)
  obtain ⟨b, hb⟩ := Option.ne_none_iff_exists'.mp fun hnone => hne (List.min?_eq_none_iff.mp hnone)
  obtain ⟨hmem, hle⟩ := List.min?_eq_some_iff.mp hb
  obtain ⟨w, hw, hval⟩ := List.mem_map.mp hmem
  have hbest : bestIdx p t = b := by rw [bestIdx, hb, Option.getD_some]
  rw [hbest]
  exact ⟨fun v hv => hle _ (List.mem_map.mpr ⟨v, h.mem_collected.mpr hv, rfl⟩),
    w, h.mem_collected.mp hw, hval.symm⟩

theorem Finished.best (h : Finished args files p) (hW : 0 < args.workers)
    (hsmall : files.length < 2 ^ 64) {t idx : ℕ} (hidx : Has args files t idx) :
    bestIdx p t ≤ idx ∧ Has args files t (bestIdx p t) ∧
      ∃ w, w < args.workers ∧ bestIdx p t = (p.workers w).state.m t ∧
        (p.workers w).state.m t ≠ maxFileIndex files.length := by
  obtain ⟨hle, w, hw, hval⟩ := h.bestIdx_spec hW t
  obtain ⟨job, hjob, ht, rfl⟩ := has_iff.mp hidx
  obtain ⟨v, hv, hhandled⟩ := (h.jobs job).mp hjob
  have hbest : bestIdx p t ≤ job.idx :=
    (hle v hv).trans ((h.processed v hv).le job hhandled t ht)
  have hne : (p.workers w).state.m t ≠ maxFileIndex files.length := by
    have := hidx.lt
    have := le_maxFileIndex hsmall
    omega
  obtain ⟨j, hj, htj, hsame⟩ := ((h.processed w hw).attained t).resolve_left hne
  refine ⟨hbest, has_iff.mpr ⟨j, (h.jobs j).mpr ⟨w, hw, hj⟩, htj, ?_⟩, w, hw, hval, hne⟩
  rw [hval, hsame]

theorem Finished.loadTrace_best (h : Finished args files p) (hW : 0 < args.workers)
    (hsmall : files.length < 2 ^ 64) {t idx : ℕ} (hidx : Has args files t idx) :
    ∃ file, files[bestIdx p t]? = some file ∧
      loadTrace args files p (bestIdx p t) = some (file.tuples args.edgeMode args.mapSize) := by
  obtain ⟨-, hbest, w, hw, hval, hne⟩ := h.best hW hsmall hidx
  obtain ⟨file, hfile, ht⟩ := hbest
  refine ⟨file, hfile, ?_⟩
  have hlt := (List.getElem?_eq_some_iff.mp hfile).1
  -- the worker that has the least entry sent a message for it
  obtain ⟨q, hq, hqidx⟩ := (h.processed w hw).complete t hne
  have hsome : (traceInfo p (bestIdx p t)).isSome := by
    rw [traceInfo, List.find?_isSome]
    refine ⟨q, ?_, by rw [hqidx, ← hval, decide_eq_true_eq]⟩
    rw [List.mem_reverse, List.mem_filterMap]
    exact ⟨some q, (h.received _).mpr ⟨w, hw, hq⟩, rfl⟩
  obtain ⟨q', hinfo⟩ := Option.isSome_iff_exists.mp hsome
  have hfound : (p.received.filterMap id).reverse.find? (fun r => r.idx = bestIdx p t) =
      some q' := hinfo
  have hidx' : q'.idx = bestIdx p t := by simpa using List.find?_some hfound
  have hmem := List.mem_of_find?_eq_some hfound
  rw [List.mem_reverse, List.mem_filterMap] at hmem
  obtain ⟨o, ho, rfl⟩ := hmem
  obtain ⟨v, hv, hsent⟩ := (h.received _).mp ho
  -- whichever message is found, it leads to the trace of the file
  obtain ⟨hworker, job, hjob, hjobIdx, -, hread⟩ := (h.processed v hv).sound q' hsent
  obtain ⟨file', hfile', hsame⟩ := mem_allJobs.mp ((h.jobs job).mpr ⟨v, hv, hjob⟩)
  have heq : file' = file := by
    rw [hjobIdx, hidx', hfile] at hfile'
    exact (Option.some.inj hfile').symm
  rw [loadTrace, if_pos hlt, hinfo, Option.map_some, hworker, hread, hsame, heq]
  rfl

/-- The steps of a run with two workers whose messages cross. -/
def crossing : List Pool.Action :=
  [.take 0, .take 1, .work 1, .work 0, .take 0, .take 1, .receive 1, .receive 0, .collect 1,
    .collect 0]

/-- Two files with a tuple in common, the second with one of its own. -/
def twoFiles : List Input :=
  [⟨[97], [1], 1, .traced fun i => if i = 0 then 3 else 0⟩,
    ⟨[98], [2], 2, .traced fun i => if i = 0 then 3 else 1⟩]

def twoWorkers : Args := ⟨2, false, false, some 2⟩

theorem count_foldl_merge (counters : ℕ → Counter ℕ) (ws : List ℕ) (c : Counter ℕ) (t : ℕ) :
    (ws.foldl (fun c w => c.merge (counters w)) c).count t =
      c.count t + (ws.map fun w => (counters w).count t).sum := by
  induction ws generalizing c with
  | nil => rfl
  | cons w ws ih =>
    rw [List.foldl_cons, ih, Counter.count_merge, List.map_cons, List.sum_cons, Nat.add_assoc]

theorem mem_keys_foldl_merge (counters : ℕ → Counter ℕ) (ws : List ℕ) (c : Counter ℕ) (t : ℕ) :
    t ∈ (ws.foldl (fun c w => c.merge (counters w)) c).keys ↔
      t ∈ c.keys ∨ ∃ w ∈ ws, t ∈ (counters w).keys := by
  induction ws generalizing c with
  | nil => simp
  | cons w ws ih =>
    rw [List.foldl_cons, ih, Counter.mem_keys_merge, or_assoc]
    simp only [List.mem_cons, or_and_right, exists_or, exists_eq_left]

/-- A tuple is counted once for every file that has it. -/
theorem weigh_allJobs (t : ℕ) : Pool.weigh (fun job => job.r.count t) (allJobs args files) =
    files.countP fun file => t ∈ file.tuples args.edgeMode args.mapSize := by
  have hjobs : Pool.weigh (fun job => job.r.count t) (allJobs args files) =
      (files.map fun file => (file.tuples args.edgeMode args.mapSize).count t).sum := by
    rw [Pool.weigh, allJobs, enumerate, List.map_map, List.map_map]
    congr 1
    rw [← List.zipIdx_map_fst 0 files, List.map_map, List.zipIdx_map_fst 0 files]
    rfl
  have hsum (l : List Input) :
      (l.map fun file => (file.tuples args.edgeMode args.mapSize).count t).sum =
        l.countP fun file => t ∈ file.tuples args.edgeMode args.mapSize := by
    induction l with
    | nil => rfl
    | cons file l ih =>
      rw [List.map_cons, List.sum_cons, ih, List.countP_cons,
        List.Nodup.count (nodup_tuples args.edgeMode args.mapSize file), Nat.add_comm]
      simp only [decide_eq_true_eq]
  rw [hjobs, hsum]

theorem Finished.collected_facts (h : Finished args files p) (hW : 0 < args.workers)
    (hsmall : files.length < 2 ^ 64) : Collected args files p := by
  refine ⟨fun t idx hidx => (h.best hW hsmall hidx).1,
    fun t idx hidx => (h.best hW hsmall hidx).2.1, fun t => ?_, fun t => ?_,
    fun t idx hidx => h.loadTrace_best hW hsmall hidx, fun idx => ?_⟩
  · rw [allCounter, mem_keys_foldl_merge, Counter.keys_empty, or_iff_right List.not_mem_nil]
    constructor
    · rintro ⟨w, hw, hkey⟩
      rw [h.mem_collected] at hw
      obtain ⟨job, hjob, ht⟩ := ((h.processed w hw).keys t).mp hkey
      exact ⟨job.idx, has_iff.mpr ⟨job, (h.jobs job).mpr ⟨w, hw, hjob⟩, ht, rfl⟩⟩
    · rintro ⟨idx, hidx⟩
      obtain ⟨job, hjob, ht, -⟩ := has_iff.mp hidx
      obtain ⟨w, hw, hhandled⟩ := (h.jobs job).mp hjob
      exact ⟨w, h.mem_collected.mpr hw, ((h.processed w hw).keys t).mpr ⟨job, hhandled, ht⟩⟩
  · rw [allCounter, count_foldl_merge, Counter.count_empty, Nat.zero_add,
      (h.collected.map _).sum_eq, ← weigh_allJobs, ← h.weigh]
    have hlist (g : ℕ → ℕ) : ((List.range args.workers).map g).sum =
        ∑ w ∈ Finset.range args.workers, g w := rfl
    rw [hlist, total]
    exact Finset.sum_congr rfl fun w hw => (h.processed w (Finset.mem_range.mp hw)).count t
  · rw [allCrashes, List.mem_flatMap]
    constructor
    · rintro ⟨w, hw, hcrash⟩
      rw [h.mem_collected] at hw
      rw [(h.processed w hw).crashes, List.mem_map] at hcrash
      obtain ⟨job, hjob, rfl⟩ := hcrash
      rw [List.mem_filter] at hjob
      have hall := (h.jobs job).mpr ⟨w, hw, hjob.1⟩
      obtain ⟨file, hfile, hsame⟩ := mem_allJobs.mp hall
      refine ⟨file, hfile, ?_⟩
      have hnil := (crash_of_mem_allJobs hall).mp hjob.2
      rw [hsame] at hnil
      exact hnil
    · rintro ⟨file, hfile, hnil⟩
      have hall := mem_allJobs.mpr
        ⟨file, hfile, (rfl : file.job args.edgeMode args.mapSize idx = _)⟩
      obtain ⟨w, hw, hjob⟩ := (h.jobs _).mp hall
      refine ⟨w, h.mem_collected.mpr hw, ?_⟩
      rw [(h.processed w hw).crashes, List.mem_map]
      exact ⟨_, List.mem_filter.mpr ⟨hjob, (crash_of_mem_allJobs hall).mpr hnil⟩, rfl⟩

/-- What the workers report together does not depend on who did what and in which order: for every
tuple the first file with it, the number of files with it and a readable trace. -/
theorem collected_of_reaches (hW : 0 < args.workers) (hsmall : files.length < 2 ^ 64)
    (hnames : ∀ batch ∈ batches args files, (batch.map (·.2.basename)).Nodup)
    (hrun : PoolReaches args files p) (hall : p.collected.length = args.workers) :
    Collected args files p :=
  (finished_of_reaches hW hnames hrun hall).collected_facts hW hsmall

theorem collected_of_reaches_crossing :
    ∃ p, PoolReaches twoWorkers twoFiles p ∧ Collected twoWorkers twoFiles p := by
  have hrun : PoolReaches twoWorkers twoFiles ((exec (poolStep twoWorkers twoFiles)
      (fun _ _ => True) (startPool twoWorkers twoFiles) crossing).getD
      (startPool twoWorkers twoFiles)) := reaches_exec (by decide +kernel)
  exact ⟨_, hrun, collected_of_reaches (by decide) (by decide) (by decide) hrun
    (by decide +kernel)⟩

/-- The workers come to an end in every schedule: all of them are collected, and there was one
message for every file. -/
theorem workers_finish (hW : 0 < args.workers) :
    ¬ RunsForever (poolStep args files) (fun _ _ => True) (startPool args files) ∧
      ∀ p, PoolReaches args files p → (∀ a, poolStep args files p a = none) →
        p.collected.length = args.workers ∧ p.received.length = files.length ∧ p.inFlight = [] :=
  Pool.run_finishes hW length_flatten_jobs.symm

theorem workers_finish_two :
    ¬ RunsForever (poolStep twoWorkers twoFiles) (fun _ _ => True) (startPool twoWorkers twoFiles) ∧
      ∀ p, PoolReaches twoWorkers twoFiles p →
        (∀ a, poolStep twoWorkers twoFiles p a = none) →
          p.collected.length = 2 ∧ p.received.length = 2 ∧ p.inFlight = [] :=
  workers_finish (by decide)

/-! ### Saving -/

/-- Every index is the best one for a tuple that none before it has. -/
inductive Economical (best : ℕ → ℕ) (trace : ℕ → List ℕ) : List ℕ → Prop
  | nil : Economical best trace []
  | snoc {saved : List ℕ} {t : ℕ} : Economical best trace saved → t ∈ trace (best t) →
      (∀ i ∈ saved, t ∉ trace i) → Economical best trace (saved ++ [best t])

section
variable {load : ℕ → Option (List ℕ)} {best : ℕ → ℕ} {trace : ℕ → List ℕ} {l : List (ℕ × ℕ)}
  {saved alreadyHave : List ℕ}

theorem saveUnique_spec (hload : ∀ e ∈ l, load (best e.1) = some (trace (best e.1)))
    (hbest : ∀ e ∈ l, e.1 ∈ trace (best e.1))
    (honly : ∀ e ∈ l, e.2 = 1 → ∀ i, e.1 ∈ trace i → i = best e.1)
    (hsaved : Economical best trace saved) (hloaded : ∀ i ∈ saved, load i = some (trace i)) :
    ∃ saved', saveUnique load best l saved = some saved' ∧ Economical best trace saved' ∧
      ∀ i ∈ saved', load i = some (trace i) := by
  induction l generalizing saved with
  | nil => exact ⟨saved, rfl, hsaved, hloaded⟩
  | cons e l ih =>
    obtain ⟨t, c⟩ := e
    rw [List.forall_mem_cons] at hload hbest honly
    rw [saveUnique]
    split_ifs with hc hmem
    · exact ih hload.2 hbest.2 honly.2 hsaved hloaded
    · exact ih hload.2 hbest.2 honly.2 hsaved hloaded
    · rw [hload.1]
      have hone : c = 1 := of_not_not hc
      refine ih hload.2 hbest.2 honly.2 (hsaved.snoc hbest.1 fun i hi ht => ?_) fun i hi => ?_
      · exact hmem (honly.1 hone i ht ▸ hi)
      · obtain hi | hi := List.mem_append.mp hi
        · exact hloaded i hi
        · rw [List.mem_singleton.mp hi]
          exact hload.1

theorem saveRest_spec (hload : ∀ e ∈ l, load (best e.1) = some (trace (best e.1)))
    (hbest : ∀ e ∈ l, e.1 ∈ trace (best e.1)) (hsaved : Economical best trace saved)
    (hhave : ∀ t, t ∈ alreadyHave ↔ ∃ i ∈ saved, t ∈ trace i) :
    ∃ saved', saveRest load best l saved alreadyHave = some saved' ∧
      Economical best trace saved' ∧ saved ⊆ saved' ∧ ∀ e ∈ l, ∃ i ∈ saved', e.1 ∈ trace i := by
  induction l generalizing saved alreadyHave with
  | nil => exact ⟨saved, rfl, hsaved, fun _ hi => hi, by simp⟩
  | cons e l ih =>
    obtain ⟨t, c⟩ := e
    rw [List.forall_mem_cons] at hload hbest
    rw [saveRest]
    split_ifs with hmem
    · obtain ⟨saved', hrun, heco, hsub, hcover⟩ := ih hload.2 hbest.2 hsaved hhave
      obtain ⟨i, hi, ht⟩ := (hhave t).mp hmem
      exact ⟨saved', hrun, heco, hsub, List.forall_mem_cons.mpr ⟨⟨i, hsub hi, ht⟩, hcover⟩⟩
    · rw [hload.1]
      have hnew : ∀ i ∈ saved, t ∉ trace i := fun i hi ht => hmem ((hhave t).mpr ⟨i, hi, ht⟩)
      have hmore : ∀ u, u ∈ alreadyHave ++ trace (best t) ↔
          ∃ i ∈ saved ++ [best t], u ∈ trace i := fun u => by
        rw [List.mem_append, hhave]
        simp only [List.mem_append, List.mem_singleton, or_and_right, exists_or, exists_eq_left]
      obtain ⟨saved', hrun, heco, hsub, hcover⟩ :=
        ih hload.2 hbest.2 (hsaved.snoc hbest.1 hnew) hmore
      refine ⟨saved', hrun, heco, fun i hi => hsub (List.mem_append_left _ hi), ?_⟩
      exact List.forall_mem_cons.mpr
        ⟨⟨best t, hsub (List.mem_append_right _ (List.mem_singleton_self _)), hbest.1⟩, hcover⟩

end

/-- The tuples of the file with an index. -/
def tuplesAt (args : Args) (files : List Input) (idx : ℕ) : List ℕ :=
  ((files[idx]?).map fun file => file.tuples args.edgeMode args.mapSize).getD []

theorem mem_tuplesAt {t idx : ℕ} : t ∈ tuplesAt args files idx ↔ Has args files t idx := by
  rw [tuplesAt, Has]
  cases files[idx]? with
  | none => simp
  | some file => simp

theorem index_eq_of_countP {α : Type} {q : α → Bool} {l : List α} (h : l.countP q = 1) {i j : ℕ}
    {a b : α} (hi : l[i]? = some a) (ha : q a = true) (hj : l[j]? = some b) (hb : q b = true) :
    i = j := by
  induction l generalizing i j with
  | nil => simp at hi
  | cons c l ih =>
    have hlater {k : ℕ} {d : α} (hk : l[k]? = some d) (hd : q d = true) : 0 < l.countP q :=
      List.countP_pos_iff.mpr ⟨d, List.mem_of_getElem? hk, hd⟩
    rw [List.countP_cons] at h
    cases i with
    | zero =>
      cases j with
      | zero => rfl
      | succ j =>
        obtain rfl : c = a := by simpa using hi
        rw [if_pos ha] at h
        have := hlater (by simpa using hj) hb
        omega
    | succ i =>
      have hpos := hlater (by simpa using hi) ha
      cases j with
      | zero =>
        obtain rfl : c = b := by simpa using hj
        rw [if_pos hb] at h
        omega
      | succ j =>
        have hrest : l.countP q = 1 := by split_ifs at h <;> omega
        exact congrArg (· + 1) (ih hrest (by simpa using hi) (by simpa using hj))

/-- A tuple that is counted once has one file. -/
theorem Collected.only (h : Collected args files p) {t idx : ℕ}
    (hone : (allCounter p).count t = 1) (hidx : Has args files t idx) : idx = bestIdx p t := by
  have hbest := h.best_has t idx hidx
  rw [h.count] at hone
  obtain ⟨file, hfile, ht⟩ := hidx
  obtain ⟨file', hfile', ht'⟩ := hbest
  exact index_eq_of_countP hone hfile (decide_eq_true ht) hfile' (decide_eq_true ht')

/-- The two loops never fail, save nothing that is not needed when it is saved, and cover all. -/
theorem Collected.saveFiles (h : Collected args files p) :
    ∃ saved, saveFiles args files p = some saved ∧
      Economical (bestIdx p) (tuplesAt args files) saved ∧
      ∀ t idx, Has args files t idx → ∃ i ∈ saved, Has args files t i := by
  have hkey : ∀ e ∈ (allCounter p).mostCommon, ∃ idx, Has args files e.1 idx := fun e he =>
    (h.keys e.1).mp (Counter.mem_mostCommon_iff.mp he).1
  have hload : ∀ e ∈ (allCounter p).mostCommon,
      loadTrace args files p (bestIdx p e.1) = some (tuplesAt args files (bestIdx p e.1)) := by
    intro e he
    obtain ⟨idx, hidx⟩ := hkey e he
    obtain ⟨file, hfile, hloaded⟩ := h.load e.1 idx hidx
    rw [hloaded, tuplesAt, hfile]
    rfl
  have hbest : ∀ e ∈ (allCounter p).mostCommon, e.1 ∈ tuplesAt args files (bestIdx p e.1) := by
    intro e he
    obtain ⟨idx, hidx⟩ := hkey e he
    exact mem_tuplesAt.mpr (h.best_has e.1 idx hidx)
  have honly : ∀ e ∈ (allCounter p).mostCommon, e.2 = 1 →
      ∀ i, e.1 ∈ tuplesAt args files i → i = bestIdx p e.1 := by
    intro e he hone i hi
    rw [(Counter.mem_mostCommon_iff.mp he).2] at hone
    exact h.only hone (mem_tuplesAt.mp hi)
  obtain ⟨unique, hunique, heco, hloaded⟩ :=
    saveUnique_spec hload hbest honly .nil fun i hi => absurd hi List.not_mem_nil
  have hhave : ∀ t, t ∈ unique.flatMap (fun idx => (loadTrace args files p idx).getD []) ↔
      ∃ i ∈ unique, t ∈ tuplesAt args files i := by
    intro t
    rw [List.mem_flatMap]
    refine exists_congr fun i => and_congr_right fun hi => ?_
    rw [hloaded i hi, Option.getD_some]
  obtain ⟨saved, hsaved, heco', -, hcover⟩ := saveRest_spec
    (fun e he => hload e (List.mem_reverse.mp he)) (fun e he => hbest e (List.mem_reverse.mp he))
    heco hhave
  refine ⟨saved, ?_, heco', fun t idx hidx => ?_⟩
  · simp only [Cmin.saveFiles, hunique]
    exact hsaved
  · have hmem : (t, (allCounter p).count t) ∈ (allCounter p).mostCommon.reverse :=
      List.mem_reverse.mpr (Counter.mem_mostCommon_iff.mpr ⟨(h.keys t).mpr ⟨idx, hidx⟩, rfl⟩)
    obtain ⟨i, hi, ht⟩ := hcover _ hmem
    exact ⟨i, hi, mem_tuplesAt.mp ht⟩

/-! ### The corpus -/

variable {found : List Input}

theorem dedup_subset (seen : List (List Byte)) : dedup seen found ⊆ found := by
  induction found generalizing seen with
  | nil => exact fun _ h => h
  | cons file found ih =>
    rw [dedup]
    split_ifs
    · exact fun f hf => List.mem_cons_of_mem _ (ih seen hf)
    · intro f hf
      obtain rfl | hf := List.mem_cons.mp hf
      · exact List.mem_cons_self
      · exact List.mem_cons_of_mem _ (ih _ hf)

theorem exists_mem_dedup (seen : List (List Byte)) {file : Input} (hfile : file ∈ found)
    (hnew : file.digest ∉ seen) : ∃ g ∈ dedup seen found, g.digest = file.digest := by
  induction found generalizing seen with
  | nil => exact absurd hfile List.not_mem_nil
  | cons f found ih =>
    rw [dedup]
    simp only [List.contains_iff_mem]
    by_cases hsame : f.digest = file.digest
    · rw [if_neg (hsame ▸ hnew)]
      exact ⟨f, List.mem_cons_self, hsame⟩
    · have hfile := (List.mem_cons.mp hfile).resolve_left fun heq => hsame (congrArg _ heq).symm
      split_ifs
      · exact ih seen hfile hnew
      · obtain ⟨g, hg, hdigest⟩ := ih (f.digest :: seen) hfile fun hmem =>
          (List.mem_cons.mp hmem).elim (fun heq => hsame heq.symm) hnew
        exact ⟨g, List.mem_cons_of_mem _ hg, hdigest⟩

theorem nodup_digest_dedup (seen : List (List Byte)) :
    ((dedup seen found).map (·.digest)).Nodup ∧ ∀ f ∈ dedup seen found, f.digest ∉ seen := by
  induction found generalizing seen with
  | nil => exact ⟨List.nodup_nil, by simp [dedup]⟩
  | cons file found ih =>
    rw [dedup]
    simp only [List.contains_iff_mem]
    split_ifs with hseen
    · exact ih seen
    · obtain ⟨hnodup, hnot⟩ := ih (file.digest :: seen)
      refine ⟨?_, List.forall_mem_cons.mpr ⟨hseen, fun f hf hmem =>
        hnot f hf (List.mem_cons_of_mem _ hmem)⟩⟩
      rw [List.map_cons, List.nodup_cons]
      refine ⟨fun hmem => ?_, hnodup⟩
      obtain ⟨f, hf, hdigest⟩ := List.mem_map.mp hmem
      exact hnot f hf (hdigest ▸ List.mem_cons_self)

theorem prepare_perm (found : List Input) : (prepare found).Perm (dedup [] found) :=
  List.perm_insertionSort _ _

theorem prepare_sorted (found : List Input) :
    (prepare found).Pairwise fun a b => a.size ≤ b.size := by
  have htotal : Std.Total fun a b : Input => a.size ≤ b.size := ⟨fun a b => le_total _ _⟩
  have htrans : IsTrans Input fun a b => a.size ≤ b.size := ⟨fun a b c => le_trans⟩
  exact List.pairwise_insertionSort _ _

/-- The files that a list of indices stands for. -/
def filesAt (files : List Input) (saved : List ℕ) : List Input :=
  saved.filterMap fun i => files[i]?

theorem mem_filesAt {saved : List ℕ} {file : Input} :
    file ∈ filesAt files saved ↔ ∃ i ∈ saved, files[i]? = some file := List.mem_filterMap

theorem Economical.has {best : ℕ → ℕ} {saved : List ℕ}
    (h : Economical best (tuplesAt args files) saved) :
    ∀ i ∈ saved, ∃ t, Has args files t i := by
  induction h with
  | nil => simp
  | snoc _ ht _ ih =>
    intro i hi
    obtain hi | hi := List.mem_append.mp hi
    · exact ih i hi
    · rw [List.mem_singleton.mp hi]
      exact ⟨_, mem_tuplesAt.mp ht⟩

theorem Economical.nodup {best : ℕ → ℕ} {trace : ℕ → List ℕ} {saved : List ℕ}
    (h : Economical best trace saved) : saved.Nodup := by
  induction h with
  | nil => exact List.nodup_nil
  | @snoc saved t _ ht hnew ih =>
    rw [List.nodup_append]
    refine ⟨ih, List.nodup_singleton _, fun i hi j hj heq => ?_⟩
    rw [List.mem_singleton.mp hj] at heq
    exact hnew i hi (heq ▸ ht)

/-- What a minimized corpus is. -/
structure Minimized (args : Args) (found kept : List Input) : Prop where
  subset : kept ⊆ found
  distinct : (kept.map (·.digest)).Nodup
  covers : ∀ f ∈ found, ∀ t ∈ f.tuples args.edgeMode args.mapSize,
    ∃ g ∈ kept, t ∈ g.tuples args.edgeMode args.mapSize
  economical : ∀ before g after, kept = before ++ g :: after →
    ∃ t ∈ g.tuples args.edgeMode args.mapSize,
      (∀ h ∈ before, t ∉ h.tuples args.edgeMode args.mapSize) ∧
      ∀ f ∈ found, t ∈ f.tuples args.edgeMode args.mapSize → g.size ≤ f.size

/-- Files with the same hash have the same contents, so they run and measure the same. -/
def HashesTell (found : List Input) : Prop :=
  ∀ f ∈ found, ∀ g ∈ found, f.digest = g.digest → f.outcome = g.outcome ∧ f.size = g.size

/-- For every file found one with its tuples and size takes part. -/
theorem exists_mem_prepare (args : Args) (hdigest : HashesTell found) {f : Input} (hf : f ∈ found) :
    ∃ (idx : ℕ) (g : Input), (prepare found)[idx]? = some g ∧ g.size = f.size ∧
      g.tuples args.edgeMode args.mapSize = f.tuples args.edgeMode args.mapSize := by
  obtain ⟨g, hg, hsame⟩ := exists_mem_dedup [] hf List.not_mem_nil
  obtain ⟨hout, hsize⟩ := hdigest g (dedup_subset [] hg) f hf hsame
  obtain ⟨idx, hidx⟩ := List.mem_iff_getElem?.mp ((prepare_perm found).mem_iff.mpr hg)
  exact ⟨idx, g, hidx, hsize, by rw [Input.tuples, Input.tuples, hout]⟩

/-- Files are saved in an economical order. -/
theorem Economical.least (hdigest : HashesTell found)
    (hbest : ∀ t idx, Has args (prepare found) t idx → bestIdx p t ≤ idx) {saved : List ℕ}
    (h : Economical (bestIdx p) (tuplesAt args (prepare found)) saved) :
    ∀ before g after, filesAt (prepare found) saved = before ++ g :: after →
      ∃ t ∈ g.tuples args.edgeMode args.mapSize,
        (∀ h ∈ before, t ∉ h.tuples args.edgeMode args.mapSize) ∧
        ∀ f ∈ found, t ∈ f.tuples args.edgeMode args.mapSize → g.size ≤ f.size := by
  induction h with
  | nil =>
    intro before g after heq
    simp [filesAt] at heq
  | @snoc saved t heco ht hnew ih =>
    intro before g after heq
    obtain ⟨file, hfile, htfile⟩ := mem_tuplesAt.mp ht
    have hsplit : filesAt (prepare found) (saved ++ [bestIdx p t]) =
        filesAt (prepare found) saved ++ [file] := by
      rw [filesAt, List.filterMap_append, List.filterMap_cons_some hfile]
      rfl
    rw [hsplit] at heq
    obtain rfl | ⟨after', last, rfl⟩ := List.eq_nil_or_concat after
    · -- the file saved last
      obtain ⟨rfl, hlast⟩ := List.append_inj' heq rfl
      obtain rfl : file = g := (List.cons.inj hlast).1
      refine ⟨t, htfile, fun h hh htmem => ?_, fun f hf htf => ?_⟩
      · obtain ⟨i, hi, hfile'⟩ := mem_filesAt.mp hh
        exact hnew i hi (mem_tuplesAt.mpr ⟨h, hfile', htmem⟩)
      · obtain ⟨idx, g, hg, hsize, htuples⟩ := exists_mem_prepare args hdigest hf
        have hle := hbest t idx ⟨g, hg, htuples ▸ htf⟩
        rw [← hsize]
        obtain heq | hlt := hle.eq_or_lt
        · rw [heq, hg] at hfile
          rw [Option.some.inj hfile]
        · obtain ⟨hi, rfl⟩ := List.getElem?_eq_some_iff.mp hfile
          obtain ⟨hj, rfl⟩ := List.getElem?_eq_some_iff.mp hg
          exact List.pairwise_iff_getElem.mp (prepare_sorted found) _ _ hi hj hlt
    · -- a file saved before
      rw [List.concat_eq_append, ← List.cons_append, ← List.append_assoc] at heq
      exact ih before g after' (List.append_inj' heq rfl).1

end AflPlusPlus.Cmin
