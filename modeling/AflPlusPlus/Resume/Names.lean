import Mathlib.Data.List.Dedup
import AflPlusPlus.Lib.NameOrder
import AflPlusPlus.Queue.State

/-!
# The order of the queue files on resume

The records of `fastresume.bin` carry no name: the `k`-th record goes to the `k`-th file that
`read_testcases` finds, and it lists the directory in the order of the names. This is the order in
which the entries were made as long as the ids keep their number of digits; names made from content
hashes follow the queue only by chance. With the options `-Z` and `AFL_SHUFFLE_QUEUE` the listing is
shuffled, on resume as well.
-/

namespace AflPlusPlus
open Lib

/-- The result of `sha1_hex`. -/
structure Sha1Hex where
  text : Name
  length_eq : text.length = 40
  hex : ∀ c ∈ text, (48 ≤ c ∧ c ≤ 57) ∨ (97 ≤ c ∧ c ≤ 102)

/-! ### Reading a directory -/

inductive DirEntry
  | file (name : Name) (size : ℕ) (hash : Sha1Hex)
  | dir (name : Name) (entries : List DirEntry)
  | other (name : Name)

def DirEntry.name : DirEntry → Name
  | .file name _ _ => name
  | .dir name _ => name
  | .other name => name

/-- An entry that `read_testcases` adds to the queue. -/
structure Seed where
  name : Name
  hash : Sha1Hex

def readme : Name := ascii "README.txt"

/-- The listing contains these as well. -/
def dots : List DirEntry := [.dir (ascii ".") [], .dir (ascii "..") []]

/-- A round of the loop of `shuffle_ptrs` on `cnt` pointers. -/
def shuffleRound {α : Type*} (draw : ℕ → ℕ) (cnt : ℕ) (ptrs : List α) (i : ℕ) : List α :=
  let j := i + randBelow (draw i) (cnt - i)
  match ptrs[i]?, ptrs[j]? with
  | some s, some t => (ptrs.set i t).set j s
  | _, _ => ptrs

/-- `shuffle_ptrs`, where `draw i` is the random number of round `i`. -/
def shufflePtrs {α : Type*} (draw : ℕ → ℕ) (ptrs : List α) : List α :=
  (List.range (ptrs.length - 2)).foldl (shuffleRound draw ptrs.length) ptrs

/-- The option `-Z` and `AFL_SHUFFLE_QUEUE`. -/
structure ScanOptions where
  oldSeedSelection : Bool
  shuffleQueue : Bool

def ScanOptions.shuffles (opts : ScanOptions) : Bool := opts.oldSeedSelection && opts.shuffleQueue

/-- The listing of a directory in the order in which `read_testcases` takes its entries. -/
def ScanOptions.listing (opts : ScanOptions) (draw : ℕ → ℕ) (entries : List DirEntry) :
    List DirEntry :=
  let nl := sortBy DirEntry.name (dots ++ entries)
  if opts.shuffles = true ∧ 1 < nl.length then shufflePtrs draw nl else nl

/-- The body of the loop; `descend` is the call for a subdirectory. -/
def readEntry (descend : Name → List DirEntry → List Seed) (subdirs : Bool) : DirEntry → List Seed
  -- `strstr(fn2, "/README.txt")` looks for the name after a slash, so that longer names match too
  | .file name size hash => if size = 0 ∨ readme <+: name then [] else [⟨name, hash⟩]
  | .dir name entries => if subdirs && name.head? != some 46 then descend name entries else []
  | .other _ => []

/-- `read_testcases` on the directory `dir` whose subdirectories are nested at most `depth - 1`
deep. A directory is listed once, so that its path tells the random numbers `draw` of its shuffle.
-/
def readTestcases (opts : ScanOptions) (draw : List Name → ℕ → ℕ) :
    ℕ → Bool → List Name → List DirEntry → List Seed
  | 0, _, _, _ => []
  | depth + 1, subdirs, dir, entries =>
    (opts.listing (draw dir) entries).flatMap
      (readEntry (fun name => readTestcases opts draw depth true (dir ++ [name])) subdirs)

/-- The queue directory of a session whose entries have the file names `names`. Its subdirectory
`.state` is not read. -/
structure IsQueueDir (names : List Name) (entries : List DirEntry) : Prop where
  nodup : (entries.map DirEntry.name).Nodup
  file : ∀ n ∈ names, ∃ size hash, DirEntry.file n size hash ∈ entries ∧ size ≠ 0
  only_file : ∀ n size hash, DirEntry.file n size hash ∈ entries → n ∈ names
  only_dir : ∀ n sub, DirEntry.dir n sub ∈ entries → n.head? = some 46

/-- On resume with these options the entries come back in the order of the queue, whatever is drawn,
so that each record is loaded into the entry it was saved for. -/
def Aligned (opts : ScanOptions) (names : List Name) : Prop :=
  ∀ draw depth subdirs dir entries, IsQueueDir names entries →
    (readTestcases opts draw (depth + 1) subdirs dir entries).map Seed.name = names

/-! ### The shuffle -/

section Shuffle

variable {α : Type*}

theorem shuffleRound_perm (draw : ℕ → ℕ) (cnt : ℕ) (ptrs : List α) (i : ℕ) :
    (shuffleRound draw cnt ptrs i).Perm ptrs := by
  rw [shuffleRound]
  split
  · rename_i s t hs ht
    obtain ⟨hi, rfl⟩ := List.getElem?_eq_some_iff.mp hs
    obtain ⟨hj, rfl⟩ := List.getElem?_eq_some_iff.mp ht
    exact List.set_set_perm hi hj
  · exact .refl _

theorem shufflePtrs_perm (draw : ℕ → ℕ) (ptrs : List α) : (shufflePtrs draw ptrs).Perm ptrs := by
  have hloop : ∀ (is : List ℕ) (cnt : ℕ) (l : List α),
      (is.foldl (shuffleRound draw cnt) l).Perm l := by
    intro is cnt
    induction is with
    | nil => exact fun l => .refl l
    | cons i is ih => exact fun l => (ih _).trans (shuffleRound_perm draw cnt l i)
  exact hloop _ _ _

/-- Later rounds leave the first place alone. -/
theorem shuffleRound_zero {draw : ℕ → ℕ} {cnt i : ℕ} (ptrs : List α) (hi : i ≠ 0) :
    (shuffleRound draw cnt ptrs i)[0]? = ptrs[0]? := by
  rw [shuffleRound]
  split
  · rw [List.getElem?_set_ne (by omega), List.getElem?_set_ne hi]
  · rfl

/-- Whatever pointer the first round draws stands in front afterwards. -/
theorem shufflePtrs_zero {draw : ℕ → ℕ} {ptrs : List α} (hlen : 2 < ptrs.length)
    (hdraw : draw 0 < ptrs.length) : (shufflePtrs draw ptrs)[0]? = ptrs[draw 0]? := by
  have hlater : ∀ (is : List ℕ) (l : List α), (∀ i ∈ is, i ≠ 0) →
      (is.foldl (shuffleRound draw ptrs.length) l)[0]? = l[0]? := by
    intro is
    induction is with
    | nil => exact fun _ _ => rfl
    | cons i is ih =>
      intro l his
      rw [List.foldl_cons, ih _ fun i' hi' => his i' (List.mem_cons_of_mem i hi'),
        shuffleRound_zero l (his i List.mem_cons_self)]
  obtain ⟨n, hn⟩ : ∃ n, ptrs.length - 2 = n + 1 := ⟨ptrs.length - 3, by omega⟩
  have hfirst : (shuffleRound draw ptrs.length ptrs 0)[0]? = ptrs[draw 0]? := by
    rw [shuffleRound, Nat.sub_zero, randBelow_of_lt hdraw, Nat.zero_add,
      List.getElem?_eq_getElem (by omega : 0 < ptrs.length), List.getElem?_eq_getElem hdraw]
    dsimp only
    by_cases hzero : draw 0 = 0
    · simp [hzero]
    · rw [List.getElem?_set_ne hzero, List.getElem?_set_self (by omega)]
  rw [shufflePtrs, hn, List.range_succ_eq_map, List.foldl_cons, ← hfirst]
  exact hlater _ _ (by simp)

end Shuffle

theorem ScanOptions.listing_perm (opts : ScanOptions) (draw : ℕ → ℕ) (entries : List DirEntry) :
    (opts.listing draw entries).Perm (dots ++ entries) := by
  rw [ScanOptions.listing]
  split
  · exact (shufflePtrs_perm _ _).trans (sortBy_perm _ _)
  · exact sortBy_perm _ _

section QueueDir

variable {names : List Name} {entries : List DirEntry} {subdirs : Bool} {opts : ScanOptions}
  {draw : List Name → ℕ → ℕ} {dir : List Name}

/-- Of a queue directory only files are read, under their own name. -/
theorem IsQueueDir.readEntry_cases (h : IsQueueDir names entries)
    (descend : Name → List DirEntry → List Seed) (subdirs : Bool) {e : DirEntry}
    (he : e ∈ entries) :
    readEntry descend subdirs e = [] ∨
      ∃ hash, readEntry descend subdirs e = [⟨e.name, hash⟩] ∧ e.name ∈ names ∧
        ¬ readme <+: e.name := by
  cases e with
  | file name size hash =>
    by_cases hskip : size = 0 ∨ readme <+: name
    · exact .inl (if_pos hskip)
    · exact .inr ⟨hash, if_neg hskip, h.only_file _ _ _ he, fun hr => hskip (.inr hr)⟩
  | dir name sub =>
    left
    simp [readEntry, h.only_dir _ _ he]
  | other name => exact .inl rfl

theorem readEntry_dots (descend : Name → List DirEntry → List Seed) (subdirs : Bool) {e : DirEntry}
    (he : e ∈ dots) : readEntry descend subdirs e = [] := by
  rw [dots, List.mem_pair] at he
  rcases he with rfl | rfl
  · simp [readEntry, show (ascii ".").head? = some 46 by decide]
  · simp [readEntry, show (ascii "..").head? = some 46 by decide]

theorem flatMap_dots (descend : Name → List DirEntry → List Seed) (subdirs : Bool)
    (entries : List DirEntry) : (dots ++ entries).flatMap (readEntry descend subdirs) =
      entries.flatMap (readEntry descend subdirs) := by
  rw [List.flatMap_append, List.flatMap_eq_nil_iff.mpr fun e he =>
    readEntry_dots descend subdirs he,
    List.nil_append]

/-- The names that are read stand in the order of the listing. -/
theorem IsQueueDir.names_sublist (h : IsQueueDir names entries)
    (descend : Name → List DirEntry → List Seed) (subdirs : Bool) {l : List DirEntry}
    (hl : ∀ e ∈ l, e ∈ dots ++ entries) :
    ((l.flatMap (readEntry descend subdirs)).map Seed.name).Sublist (l.map DirEntry.name) := by
  induction l with
  | nil => exact .slnil
  | cons e l ih =>
    have ih := ih fun e' he' => hl e' (List.mem_cons_of_mem e he')
    rw [List.flatMap_cons, List.map_append, List.map_cons]
    rcases List.mem_append.mp (hl e List.mem_cons_self) with hdots | he
    · rw [readEntry_dots descend subdirs hdots]
      exact ih.cons _
    · obtain hnil | ⟨hash, hone, -⟩ := h.readEntry_cases descend subdirs he
      · rw [hnil]
        exact ih.cons _
      · rw [hone]
        exact ih.cons_cons _

/-- In whatever order the listing is taken, no file is read twice. -/
theorem IsQueueDir.readTestcases_nodup (h : IsQueueDir names entries) (depth : ℕ) :
    ((readTestcases opts draw (depth + 1) subdirs dir entries).map Seed.name).Nodup := by
  rw [readTestcases]
  have hperm := (opts.listing_perm (draw dir) entries).flatMap_right
    (readEntry (fun name => readTestcases opts draw depth true (dir ++ [name])) subdirs)
  rw [flatMap_dots] at hperm
  rw [(hperm.map Seed.name).nodup_iff]
  exact h.nodup.sublist (h.names_sublist _ _ fun e he => List.mem_append_right _ he)

theorem IsQueueDir.readTestcases_pairwise (h : IsQueueDir names entries) (depth : ℕ)
    (hsorted : opts.shuffles = false) :
    ((readTestcases opts draw (depth + 1) subdirs dir entries).map Seed.name).Pairwise (· < ·) := by
  have hlisting : opts.listing (draw dir) entries = sortBy DirEntry.name (dots ++ entries) := by
    simp [ScanOptions.listing, hsorted]
  have hle : ((readTestcases opts draw (depth + 1) subdirs dir entries).map Seed.name).Pairwise
      (· ≤ ·) := by
    rw [readTestcases, hlisting]
    refine List.Pairwise.sublist (h.names_sublist _ _ fun e he =>
      (sortBy_perm _ _).mem_iff.mp he) ?_
    exact List.pairwise_map.mpr (sortBy_pairwise_le _ _)
  exact hle.imp₂ (fun _ _ hle hne => lt_of_le_of_ne hle hne) (h.readTestcases_nodup depth)

theorem IsQueueDir.mem_readTestcases (h : IsQueueDir names entries) (depth : ℕ) (n : Name) :
    n ∈ (readTestcases opts draw (depth + 1) subdirs dir entries).map Seed.name ↔
      n ∈ names ∧ ¬ readme <+: n := by
  rw [readTestcases, List.mem_map]
  have hperm := (opts.listing_perm (draw dir) entries).flatMap_right
    (readEntry (fun name => readTestcases opts draw depth true (dir ++ [name])) subdirs)
  rw [flatMap_dots] at hperm
  constructor
  · rintro ⟨seed, hseed, rfl⟩
    obtain ⟨e, he, hmem⟩ := List.mem_flatMap.mp (hperm.mem_iff.mp hseed)
    obtain hnil | ⟨hash, hone, hin⟩ := h.readEntry_cases _ _ he
    · rw [hnil] at hmem
      cases hmem
    · rw [hone, List.mem_singleton] at hmem
      rw [hmem]
      exact hin
  · rintro ⟨hn, hreadme⟩
    obtain ⟨size, hash, hmem, hsize⟩ := h.file n hn
    refine ⟨⟨n, hash⟩, hperm.mem_iff.mpr (List.mem_flatMap.mpr ⟨_, hmem, ?_⟩), rfl⟩
    rw [readEntry, if_neg (not_or.mpr ⟨hsize, hreadme⟩)]
    exact List.mem_singleton.mpr rfl

theorem exists_isQueueDir (names : List Name) : ∃ entries, IsQueueDir names entries := by
  let hash : Sha1Hex := ⟨List.replicate 40 48, List.length_replicate, by simp⟩
  refine ⟨names.dedup.map fun n => .file n 1 hash, ⟨?_, fun n hn => ?_, ?_, ?_⟩⟩
  · rw [List.map_map]
    exact (List.map_id _).symm ▸ names.nodup_dedup
  · exact ⟨1, hash, List.mem_map.mpr ⟨n, List.mem_dedup.mpr hn, rfl⟩, Nat.one_ne_zero⟩
  · intro n size hash' hmem
    obtain ⟨m, hm, heq⟩ := List.mem_map.mp hmem
    cases heq
    exact List.mem_dedup.mp hm
  · intro n sub hmem
    obtain ⟨m, -, heq⟩ := List.mem_map.mp hmem
    cases heq

/-- A sorted listing gives the queue back exactly when its names are increasing and none is
skipped. -/
theorem aligned_iff_pairwise (hsorted : opts.shuffles = false) :
    Aligned opts names ↔ names.Pairwise (· < ·) ∧ ∀ n ∈ names, ¬ readme <+: n := by
  constructor
  · intro h
    obtain ⟨entries, hdir⟩ := exists_isQueueDir names
    have heq := h (fun _ _ => 0) 0 true [] entries hdir
    refine ⟨heq ▸ hdir.readTestcases_pairwise 0 hsorted, fun n hn => ?_⟩
    rw [← heq, hdir.mem_readTestcases] at hn
    exact hn.2
  · rintro ⟨hlt, hreadme⟩ draw depth subdirs dir entries hdir
    refine eq_of_pairwise_lt (hdir.readTestcases_pairwise depth hsorted) hlt fun n => ?_
    rw [hdir.mem_readTestcases]
    exact ⟨And.left, fun hn => ⟨hn, hreadme n hn⟩⟩

/-- For each file there are random numbers with which the shuffle puts it in front. -/
theorem exists_front (hshuffles : opts.shuffles = true) {e : DirEntry} (he : e ∈ entries) :
    ∃ draw rest, opts.listing draw entries = e :: rest := by
  have hlen : 2 < (sortBy DirEntry.name (dots ++ entries)).length := by
    have hpos := List.length_pos_of_mem he
    rw [(sortBy_perm _ _).length_eq, List.length_append, show dots.length = 2 from rfl]
    omega
  obtain ⟨j, hj, hje⟩ := List.mem_iff_getElem.mp
    ((sortBy_perm DirEntry.name (dots ++ entries)).mem_iff.mpr (List.mem_append_right _ he))
  have hzero : (shufflePtrs (fun _ => j) _)[0]? = _ := shufflePtrs_zero hlen hj
  rw [List.getElem?_eq_getElem hj, hje] at hzero
  refine ⟨fun _ => j, (shufflePtrs (fun _ => j) (sortBy DirEntry.name (dots ++ entries))).tail, ?_⟩
  rw [ScanOptions.listing, if_pos ⟨hshuffles, by omega⟩]
  exact (List.cons_head?_tail (List.head?_eq_getElem? ▸ hzero)).symm

/-- A shuffled listing gives only a single file back for certain. -/
theorem aligned_iff_of_shuffles (hshuffles : opts.shuffles = true) :
    Aligned opts names ↔ names.length ≤ 1 ∧ ∀ n ∈ names, ¬ readme <+: n := by
  constructor
  · intro h
    obtain ⟨entries, hdir⟩ := exists_isQueueDir names
    have hread : ∀ n ∈ names, ¬ readme <+: n := by
      intro n hn
      rw [← h (fun _ _ => 0) 0 true [] entries hdir, hdir.mem_readTestcases] at hn
      exact hn.2
    have hnodup : names.Nodup := by
      have heq := h (fun _ _ => 0) 0 true [] entries hdir
      exact heq ▸ hdir.readTestcases_nodup 0
    -- every name can come first
    have hfirst : ∀ n ∈ names, names.head? = some n := by
      intro n hn
      obtain ⟨size, hash, hmem, hsize⟩ := hdir.file n hn
      obtain ⟨draw, rest, hlisting⟩ := exists_front hshuffles hmem
      have heq := h (fun _ => draw) 0 true [] entries hdir
      rw [readTestcases, hlisting, List.flatMap_cons, readEntry,
        if_neg (not_or.mpr ⟨hsize, hread n hn⟩)] at heq
      rw [← heq]
      rfl
    refine ⟨?_, hread⟩
    cases names with
    | nil => exact Nat.zero_le 1
    | cons a names =>
      cases names with
      | nil => exact le_rfl
      | cons b names =>
        have hab := Option.some_inj.mp (hfirst b (by simp))
        exact absurd hab (List.ne_of_not_mem_cons (List.nodup_cons.mp hnodup).1)
  · rintro ⟨hlen, hreadme⟩ draw depth subdirs dir entries hdir
    have hperm : ((readTestcases opts draw (depth + 1) subdirs dir entries).map Seed.name).Perm
        names := by
      refine (List.perm_ext_iff_of_nodup (hdir.readTestcases_nodup depth) ?_).mpr fun n => ?_
      · exact List.nodup_iff_count_le_one.mpr fun n => (List.count_le_length).trans hlen
      · rw [hdir.mem_readTestcases]
        exact ⟨And.left, fun hn => ⟨hn, hreadme n hn⟩⟩
    cases names with
    | nil => exact hperm.eq_nil
    | cons a names =>
      cases names with
      | nil => exact hperm.eq_singleton
      | cons b names => simp at hlen

end QueueDir

/-! ### The names of a session -/

/-- What the names depend on: the compile option `SIMPLE_FILES`, `AFL_SHA1_FILENAMES`, whether the
session resumes in place, the extension of the files, and `total_execs` when the seeds are
imported. -/
structure NameConfig where
  simpleFiles : Bool
  sha1Filenames : Bool
  inPlaceResume : Bool
  fileExtension : Option Name
  totalExecs : ℕ

/-- An input that `save_if_interesting` keeps, with the result of `describe_op`. -/
structure Find where
  description : Name
  hash : Sha1Hex

inductive Origin
  | seed (seed : Seed)
  | find (find : Find)

/-- `no_spaces` on the text from position `n` on. -/
def noSpaces : ℕ → Name → Name
  | _, [] => []
  | 0, c :: cs => (if c = 32 then 95 else c) :: noSpaces 0 cs
  | n + 1, c :: cs => c :: noSpaces n cs

def isSpace (c : ℕ) : Bool := c = 32 ∨ (9 ≤ c ∧ c ≤ 13)

def isDigit (c : ℕ) : Bool := 48 ≤ c ∧ c ≤ 57

def digitsValue (ds : Name) : ℕ := ds.foldl (fun v c => 10 * v + (c - 48)) 0

/-- `sscanf` with `%06u`: blanks, a sign and digits, the latter in at most six characters. -/
def scanId (text : Name) : Option ℕ :=
  match text.dropWhile isSpace with
  | 45 :: rest => match (rest.take 5).takeWhile isDigit with
    | [] => none
    | ds => some ((2 ^ 32 - digitsValue ds) % 2 ^ 32)
  | 43 :: rest => match (rest.take 5).takeWhile isDigit with
    | [] => none
    | ds => some (digitsValue ds)
  | rest => match (rest.take 6).takeWhile isDigit with
    | [] => none
    | ds => some (digitsValue ds)

namespace NameConfig

/-- `CASE_PREFIX`. -/
def casePrefix (cfg : NameConfig) : Name := if cfg.simpleFiles then ascii "id_" else ascii "id:"

def extension (cfg : NameConfig) : Name :=
  match cfg.fileExtension with
  | some ext => ascii "." ++ ext
  | none => []

/-- The file name conforms to the syntax and its id is the one that would be assigned. -/
def keepsName (cfg : NameConfig) (id : ℕ) (rsl : Name) : Bool :=
  cfg.inPlaceResume || (cfg.casePrefix.isPrefixOf rsl && scanId (rsl.drop 3) == some id)

/-- The part of the original name that a new name captures. -/
def useName (rsl : Name) : Name :=
  match strstr (ascii ",orig:") rsl with
  | some text => text.drop 6
  | none => rsl

/-- The name that `pivot_inputs` gives to a seed. -/
def pivotName (cfg : NameConfig) (id : ℕ) (seed : Seed) : Name :=
  if cfg.keepsName id seed.name then seed.name ++ cfg.extension
  else if cfg.simpleFiles then ascii "id_" ++ decimal 6 id ++ cfg.extension
  -- the first 29 characters are never looked at for blanks
  else if cfg.sha1Filenames then noSpaces 29 (seed.hash.text ++ cfg.extension)
  else noSpaces 29 (ascii "id:" ++ decimal 6 id ++ ascii ",time:0,execs:" ++
    decimal 1 cfg.totalExecs ++ ascii ",orig:" ++ useName seed.name ++ cfg.extension)

/-- The name `queue_fn` that `save_if_interesting` gives to a find. -/
def queueFn (cfg : NameConfig) (id : ℕ) (find : Find) : Name :=
  if cfg.simpleFiles then ascii "id_" ++ decimal 6 id ++ cfg.extension
  else if cfg.sha1Filenames then find.hash.text ++ cfg.extension
  else ascii "id:" ++ decimal 6 id ++ ascii "," ++ find.description ++ cfg.extension

def fileName (cfg : NameConfig) (id : ℕ) : Origin → Name
  | .seed seed => cfg.pivotName id seed
  | .find find => cfg.queueFn id find

end NameConfig

/-- A session: the directory its seeds come from, how it is scanned, and what the session finds. -/
structure Session where
  cfg : NameConfig
  scan : ScanOptions
  draw : List Name → ℕ → ℕ
  depth : ℕ
  subdirs : Bool
  input : List DirEntry
  finds : List Find

def Session.seeds (s : Session) : List Seed :=
  readTestcases s.scan s.draw s.depth s.subdirs [] s.input

/-- The entries in the order of `queue_buf`. -/
def Session.entries (s : Session) : List Origin := s.seeds.map .seed ++ s.finds.map .find

def Session.names (s : Session) : List Name := s.entries.mapIdx s.cfg.fileName

/-! ### Which neighbours are in order -/

/-- What decides the place of a name: the id it starts with, the hash it is made of, or a text that
was kept from the input directory. -/
inductive NameKind
  | byId
  | byHash (hash : Sha1Hex)
  | byText

namespace NameConfig

/-- The kind of a name that was invented for an entry with content hash `hash`. -/
def newKind (cfg : NameConfig) (hash : Sha1Hex) : NameKind :=
  if cfg.sha1Filenames && !cfg.simpleFiles then .byHash hash else .byId

def kind (cfg : NameConfig) (id : ℕ) : Origin → NameKind
  | .seed seed =>
    if cfg.keepsName id seed.name then
      if cfg.casePrefix ++ decimal 6 id <+: seed.name then .byId else .byText
    else cfg.newKind seed.hash
  | .find find => cfg.newKind find.hash

/-- The condition on the entries at positions `id` and `id + 1`. -/
def InOrder (cfg : NameConfig) (id : ℕ) (a b : Origin) : Prop :=
  match cfg.kind id a, cfg.kind (id + 1) b with
  | .byId, .byId => ∀ m, id + 1 ≠ 10 ^ (6 + m)
  | .byHash hash, .byHash hash' => hash.text < hash'.text
  | _, _ => cfg.fileName id a < cfg.fileName (id + 1) b

end NameConfig

/-! ### The text of the names -/

theorem noSpaces_append {a : Name} (h : ∀ c ∈ a, c ≠ 32) (n : ℕ) (b : Name) :
    noSpaces n (a ++ b) = a ++ noSpaces (n - a.length) b := by
  induction a generalizing n with
  | nil => rfl
  | cons c a ih =>
    have hc : c ≠ 32 := h c List.mem_cons_self
    have ha : ∀ d ∈ a, d ≠ 32 := fun d hd => h d (List.mem_cons_of_mem c hd)
    cases n with
    | zero =>
      rw [List.cons_append, noSpaces, if_neg hc, ih ha, List.cons_append, Nat.zero_sub,
        Nat.zero_sub]
    | succ n => rw [List.cons_append, noSpaces, ih ha, List.cons_append, List.length_cons,
        Nat.add_sub_add_right]

/-- An underscore sorts after the blank it replaces. -/
theorem le_noSpaces (l : Name) : l ≤ noSpaces 0 l := by
  induction l with
  | nil => exact le_rfl
  | cons c l ih =>
    rw [noSpaces]
    by_cases hc : c = 32
    · apply le_of_lt
      rw [if_pos hc, List.cons_lt_cons_iff]
      left
      omega
    · rw [if_neg hc]
      obtain hlt | heq := lt_or_eq_of_le ih
      · apply le_of_lt
        rw [List.cons_lt_cons_iff]
        exact .inr ⟨rfl, hlt⟩
      · rw [← heq]

theorem Sha1Hex.ne_space (hash : Sha1Hex) : ∀ c ∈ hash.text, c ≠ 32 := by
  intro c hc heq
  have := hash.hex c hc
  omega

theorem decimal_ne_space (w n : ℕ) : ∀ c ∈ decimal w n, c ≠ 32 := by
  intro c hc heq
  have := fixDigits_digit hc
  omega

section Kinds

variable {cfg : NameConfig} {id : ℕ}

theorem newKind_eq_byId {hash : Sha1Hex} (h : cfg.newKind hash = .byId) :
    cfg.simpleFiles = true ∨ cfg.sha1Filenames = false := by
  unfold NameConfig.newKind at h
  cases hs : cfg.simpleFiles <;> cases hh : cfg.sha1Filenames <;> simp_all

theorem newKind_eq_byHash {hash hash' : Sha1Hex} (h : cfg.newKind hash = .byHash hash') :
    cfg.simpleFiles = false ∧ cfg.sha1Filenames = true ∧ hash = hash' := by
  unfold NameConfig.newKind at h
  cases hs : cfg.simpleFiles <;> cases hh : cfg.sha1Filenames <;> simp_all

/-- A name that is placed by its id starts with the prefix and the id. -/
theorem fileName_of_byId {o : Origin} (h : cfg.kind id o = .byId) :
    ∃ rest, cfg.fileName id o = cfg.casePrefix ++ (decimal 6 id ++ rest) := by
  cases o with
  | seed seed =>
    by_cases hkeep : cfg.keepsName id seed.name = true
    · -- a name that is kept already has the id in it, or it is placed by its text
      by_cases hpre : cfg.casePrefix ++ decimal 6 id <+: seed.name
      · obtain ⟨rest, hrest⟩ := hpre
        refine ⟨rest ++ cfg.extension, ?_⟩
        rw [NameConfig.fileName, NameConfig.pivotName, if_pos hkeep, ← hrest]
        simp only [List.append_assoc]
      · simp [NameConfig.kind, hkeep, hpre] at h
    · have hnew : cfg.newKind seed.hash = .byId := by
        simpa [NameConfig.kind, hkeep] using h
      rw [NameConfig.fileName, NameConfig.pivotName, if_neg hkeep, NameConfig.casePrefix]
      cases hs : cfg.simpleFiles with
      | true => exact ⟨cfg.extension, by simp⟩
      | false =>
        have hsha : cfg.sha1Filenames = false := by
          simpa [hs] using newKind_eq_byId hnew
        -- neither the prefix nor the digits have a blank that would be replaced
        have hid : ∀ c ∈ ascii "id:", c ≠ 32 := by decide
        rw [if_neg Bool.false_ne_true, if_neg (by simp [hsha]), if_neg Bool.false_ne_true]
        simp only [List.append_assoc]
        rw [noSpaces_append hid, noSpaces_append (decimal_ne_space 6 id)]
        exact ⟨_, rfl⟩
  | find find =>
    have hnew := newKind_eq_byId h
    rw [NameConfig.fileName, NameConfig.queueFn, NameConfig.casePrefix]
    cases hs : cfg.simpleFiles with
    | true => exact ⟨cfg.extension, by simp⟩
    | false =>
      have hsha : cfg.sha1Filenames = false := by simpa [hs] using hnew
      exact ⟨ascii "," ++ find.description ++ cfg.extension, by simp [hsha]⟩

/-- What follows the hash in a name; in the extension of a seed blanks are replaced. -/
def NameConfig.hashSuffix (cfg : NameConfig) : Origin → Name
  | .seed _ => noSpaces 0 cfg.extension
  | .find _ => cfg.extension

theorem fileName_of_byHash {o : Origin} {hash : Sha1Hex} (h : cfg.kind id o = .byHash hash) :
    cfg.fileName id o = hash.text ++ cfg.hashSuffix o := by
  cases o with
  | seed seed =>
    by_cases hkeep : cfg.keepsName id seed.name = true
    · simp only [NameConfig.kind, if_pos hkeep] at h
      split at h <;> cases h
    · have hnew : cfg.newKind seed.hash = .byHash hash := by
        simpa [NameConfig.kind, hkeep] using h
      obtain ⟨hs, hsha, rfl⟩ := newKind_eq_byHash hnew
      rw [NameConfig.fileName, NameConfig.pivotName, if_neg hkeep, if_neg (by simp [hs]),
        if_pos hsha,
        noSpaces_append seed.hash.ne_space, seed.hash.length_eq]
      rfl
  | find find =>
    obtain ⟨hs, hsha, rfl⟩ := newKind_eq_byHash h
    rw [NameConfig.fileName, NameConfig.queueFn, if_neg (by simp [hs]), if_pos hsha]
    rfl

/-- Neighbours are in the order of their names exactly when the condition says so. A find is never
followed by a seed. -/
theorem fileName_lt_iff {a b : Origin}
    (hab : ∀ f s, a = .find f → b ≠ .seed s) :
    cfg.fileName id a < cfg.fileName (id + 1) b ↔ cfg.InOrder id a b := by
  unfold NameConfig.InOrder
  cases ha : cfg.kind id a with
  | byText => rfl
  | byId =>
    cases hb : cfg.kind (id + 1) b with
    | byText => rfl
    | byHash hash => rfl
    | byId =>
      obtain ⟨r, hr⟩ := fileName_of_byId ha
      obtain ⟨r', hr'⟩ := fileName_of_byId hb
      rw [hr, hr', append_lt_append_left]
      exact decimal_append_lt_iff (by decide) id r r'
  | byHash hash =>
    cases hb : cfg.kind (id + 1) b with
    | byText => rfl
    | byId => rfl
    | byHash hash' =>
      have hlen : hash.text.length = hash'.text.length := by rw [hash.length_eq, hash'.length_eq]
      rw [fileName_of_byHash ha, fileName_of_byHash hb]
      show _ ↔ hash.text < hash'.text
      obtain hlt | heq | hgt := lt_trichotomy hash.text hash'.text
      · exact iff_of_true (append_lt_append _ _ hlen hlt) hlt
      · -- One content twice: the names agree but for the blanks in the extension.
        rw [heq, append_lt_append_left]
        refine iff_of_false (not_lt_of_ge ?_) (lt_irrefl _)
        cases a with
        | seed s =>
          cases b with
          | seed s' => exact le_rfl
          | find f' => exact le_noSpaces cfg.extension
        | find f =>
          cases b with
          | seed s' => exact absurd rfl (hab f s' rfl)
          | find f' => exact le_rfl
      · exact iff_of_false (append_lt_append _ _ hlen.symm hgt).asymm hgt.asymm

end Kinds

/-! ### Alignment of a session -/

theorem Session.entries_getElem? (s : Session) (k : ℕ) :
    s.entries[k]? = if k < s.seeds.length then (s.seeds[k]?).map .seed
      else (s.finds[k - s.seeds.length]?).map .find := by
  simp only [Session.entries, List.getElem?_append, List.length_map, List.getElem?_map]

theorem Session.find_not_before_seed (s : Session) {k : ℕ} {f : Find} {seed : Seed}
    (hk : s.entries[k]? = some (.find f)) : s.entries[k + 1]? ≠ some (.seed seed) := by
  intro hk'
  rw [s.entries_getElem?] at hk hk'
  by_cases hlt : k < s.seeds.length
  · rw [if_pos hlt] at hk
    obtain ⟨x, -, hx⟩ := Option.map_eq_some_iff.mp hk
    cases hx
  · rw [if_neg (by omega)] at hk'
    obtain ⟨x, -, hx⟩ := Option.map_eq_some_iff.mp hk'
    cases hx

/-- No kept name becomes one of those that `read_testcases` skips. -/
def Session.NoneSkipped (s : Session) : Prop :=
  ∀ k seed, s.seeds[k]? = some seed → s.cfg.keepsName k seed.name = true →
    ¬ readme <+: seed.name ++ s.cfg.extension

theorem Session.length_names (s : Session) : s.names.length = s.entries.length := List.length_mapIdx

theorem Session.pairwise_names_iff (s : Session) :
    s.names.Pairwise (· < ·) ↔ ∀ k (h : k + 1 < s.entries.length),
      s.cfg.InOrder k s.entries[k] s.entries[k + 1] := by
  have hname : ∀ k (h : k + 1 < s.entries.length) (h' : k + 1 < s.names.length),
      s.names[k] < s.names[k + 1] ↔ s.cfg.InOrder k s.entries[k] s.entries[k + 1] := by
    intro k h h'
    simp only [Session.names, List.getElem_mapIdx]
    apply fileName_lt_iff
    intro f seed hf hs
    exact s.find_not_before_seed (hf ▸ List.getElem?_eq_getElem _) (hs ▸ List.getElem?_eq_getElem h)
  rw [← List.isChain_iff_pairwise, List.isChain_iff_getElem]
  constructor
  · intro hlt k h
    have h' : k + 1 < s.names.length := by rwa [s.length_names]
    exact (hname k h h').mp (hlt k h')
  · intro hin k h'
    have h : k + 1 < s.entries.length := by rwa [← s.length_names]
    exact (hname k h h').mpr (hin k h)

theorem not_readme_cons {c : ℕ} (hc : c ≠ 82) (l : Name) : ¬ readme <+: c :: l :=
  fun hpre => hc (List.cons_prefix_cons.mp hpre).1.symm

theorem not_readme_of_byId {cfg : NameConfig} {id : ℕ} {o : Origin} (h : cfg.kind id o = .byId) :
    ¬ readme <+: cfg.fileName id o := by
  obtain ⟨rest, hrest⟩ := fileName_of_byId h
  rw [hrest, NameConfig.casePrefix]
  split <;> exact not_readme_cons (by decide) _

/-- Only a kept name can start like the file that is skipped. -/
theorem kept_of_readme_prefix {cfg : NameConfig} {id : ℕ} {o : Origin}
    (h : readme <+: cfg.fileName id o) :
    ∃ seed, o = .seed seed ∧ cfg.keepsName id seed.name = true := by
  cases hk : cfg.kind id o with
  | byId => exact absurd h (not_readme_of_byId hk)
  | byHash hash =>
    rw [fileName_of_byHash hk] at h
    cases htext : hash.text with
    | nil =>
      have hlen := hash.length_eq
      rw [htext] at hlen
      cases hlen
    | cons c text =>
      have hhex := hash.hex c (htext ▸ List.mem_cons_self)
      rw [htext] at h
      exact absurd h (not_readme_cons (by omega) _)
  | byText =>
    cases o with
    | seed seed =>
      refine ⟨seed, rfl, ?_⟩
      by_contra hkeep
      rw [NameConfig.kind, if_neg hkeep, NameConfig.newKind] at hk
      split at hk <;> cases hk
    | find find =>
      rw [NameConfig.kind, NameConfig.newKind] at hk
      split at hk <;> cases hk

theorem Session.noneSkipped_iff (s : Session) :
    (∀ n ∈ s.names, ¬ readme <+: n) ↔ s.NoneSkipped := by
  constructor
  · intro h k seed hk hkeep
    have hlt : k < s.seeds.length := (List.getElem?_eq_some_iff.mp hk).1
    have hentry : s.entries[k]? = some (.seed seed) := by
      rw [s.entries_getElem?, if_pos hlt, hk, Option.map_some]
    have hname : s.names[k]? = some (seed.name ++ s.cfg.extension) := by
      rw [Session.names, List.getElem?_mapIdx, hentry, Option.map_some, NameConfig.fileName,
        NameConfig.pivotName, if_pos hkeep]
    exact h _ (List.mem_of_getElem? hname)
  · intro h n hn hreadme
    obtain ⟨k, hk, rfl⟩ := List.mem_mapIdx.mp hn
    obtain ⟨seed, ho, hkeep⟩ := kept_of_readme_prefix hreadme
    have hentry : s.entries[k]? = some (.seed seed) := ho ▸ List.getElem?_eq_getElem hk
    rw [s.entries_getElem?] at hentry
    split at hentry
    · obtain ⟨seed', hseed', heq⟩ := Option.map_eq_some_iff.mp hentry
      cases heq
      rw [ho, NameConfig.fileName, NameConfig.pivotName, if_pos hkeep] at hreadme
      exact h k seed hseed' hkeep hreadme
    · obtain ⟨f, -, heq⟩ := Option.map_eq_some_iff.mp hentry
      cases heq

/-- The queue of a session comes back in its order exactly when no two neighbours swap: ids keep
their number of digits, hashes increase along the queue, and kept names fit in as texts. A resume
that shuffles brings only a single entry back for certain. -/
theorem readTestcases_aligned_iff (s : Session) (resume : ScanOptions) :
    Aligned resume s.names ↔ (∀ k (h : k + 1 < s.entries.length),
      s.cfg.InOrder k s.entries[k] s.entries[k + 1]) ∧ s.NoneSkipped ∧
        (resume.shuffles = true → s.entries.length ≤ 1) := by
  cases hshuffles : resume.shuffles with
  | false =>
    rw [aligned_iff_pairwise hshuffles, s.pairwise_names_iff, s.noneSkipped_iff]
    simp
  | true =>
    rw [aligned_iff_of_shuffles hshuffles, s.noneSkipped_iff, s.length_names]
    constructor
    · rintro ⟨hlen, hnone⟩
      exact ⟨fun k h => by omega, hnone, fun _ => hlen⟩
    · rintro ⟨-, hnone, hlen⟩
      exact ⟨hlen rfl, hnone⟩

/-- With names made from ids the queue comes back in order up to a million entries. -/
theorem aligned_iff_of_byId (s : Session) {resume : ScanOptions} (hsorted : resume.shuffles = false)
    (hid : ∀ k (h : k < s.entries.length), s.cfg.kind k s.entries[k] = .byId) :
    Aligned resume s.names ↔ s.entries.length ≤ 10 ^ 6 := by
  have hnone : ∀ n ∈ s.names, ¬ readme <+: n := by
    intro n hn
    obtain ⟨k, hk, rfl⟩ := List.mem_mapIdx.mp hn
    exact not_readme_of_byId (hid k hk)
  have horder : ∀ k (h : k + 1 < s.entries.length),
      s.cfg.InOrder k s.entries[k] s.entries[k + 1] ↔ ∀ m, k + 1 ≠ 10 ^ (6 + m) := by
    intro k h
    rw [NameConfig.InOrder, hid k (by omega), hid (k + 1) h]
  rw [aligned_iff_pairwise hsorted, s.pairwise_names_iff]
  constructor
  · rintro ⟨hin, -⟩
    by_contra hlen
    have hlast : 999999 + 1 < s.entries.length := by omega
    exact (horder 999999 hlast).mp (hin 999999 hlast) 0 rfl
  · intro hlen
    refine ⟨fun k h => (horder k h).mpr fun m hm => ?_, hnone⟩
    have hpow : 10 ^ 6 ≤ 10 ^ (6 + m) := Nat.pow_le_pow_right (by decide) (by omega)
    omega

/-- `sha1_hex` of the inputs `a` and `c`. -/
def sha1OfA : Sha1Hex := ⟨ascii "86f7e437faa5a7fce15d1ddcb9eaeaea377667b8", by decide, by decide⟩

def sha1OfC : Sha1Hex := ⟨ascii "84a516841ba77a5b4648de2cd0dfcb30ea46dbb4", by decide, by decide⟩

/-- A session with `AFL_SHA1_FILENAMES` that starts from the input `a` and finds the input `c`. -/
def sha1Session : Session where
  cfg := ⟨false, true, false, none, 0⟩
  scan := ⟨false, false⟩
  draw := fun _ _ => 0
  depth := 1
  subdirs := true
  input := [.file (ascii "seed") 1 sha1OfA]
  finds := [⟨ascii "src:000000,time:7,execs:9,op:flip1,pos:0,+cov", sha1OfC⟩]

theorem sha1_names_swap_on_resume : ¬ Aligned ⟨false, false⟩ sha1Session.names := by
  have hnames : sha1Session.names = [sha1OfA.text, sha1OfC.text] := by
    have hseeds : sha1Session.seeds = [⟨ascii "seed", sha1OfA⟩] := rfl
    rw [Session.names, Session.entries, hseeds]
    decide
  rw [hnames, aligned_iff_pairwise rfl]
  decide

end AflPlusPlus
