import AflPlusPlus.Lib.Ctype
import AflPlusPlus.Lib.Loop
import Mathlib.Data.List.TakeWhile

/-!
# The list of custom mutators

How `setup_custom_mutators` takes the value of `AFL_CUSTOM_MUTATOR_LIBRARY` apart. The call of
`strsep` for the next token stands in the branch for a token that is not empty, so that an empty one
is looked at forever.
-/

namespace AflPlusPlus.Mutation
open Lib

/-- `strsep`: the token, and the pointer behind the separator that ends it. -/
def strsep (delim : Byte → Bool) : Option (List Byte) → Option (List Byte) × Option (List Byte)
  | none => (none, none)
  | some s =>
    match s.dropWhile fun c => !delim c with
    | [] => (some s, none)
    | _ :: rest => (some (s.takeWhile fun c => !delim c), some rest)

/-- The characters of `";:,"`. -/
def isSeparator (c : Byte) : Bool := c = chr ';' || c = chr ':' || c = chr ','

/-- `custom_mutator_list` and `custom_mutators_count`. -/
structure CustomMutators (α : Type) where
  list : List α
  count : BitVec 32

variable {α : Type} {load : List Byte → α}

/-- The variables of the loop over the tokens. -/
structure TokenLoop (α : Type) where
  fnToken : Option (List Byte)
  fn : Option (List Byte)
  afl : CustomMutators α

/-- `while (fn_token)`. -/
def TokenLoop.more (s : TokenLoop α) : Bool := s.fnToken.isSome

/-- The loop body; `none` is `FATAL`, and `load` is `load_custom_mutator`, which does not come back
when it cannot load the library. -/
def tokenBody (load : List Byte → α) (s : TokenLoop α) : Option (TokenLoop α) :=
  match s.fnToken with
  | none => some s
  | some [] => some s
  | some (c :: token) =>
    let prevMutatorCount := s.afl.count
    let count := s.afl.count + 1
    if prevMutatorCount > count then none
    else
      let (fnToken, fn) := strsep isSeparator s.fn
      some ⟨fnToken, fn, s.afl.list ++ [load (c :: token)], count⟩

def tokenLoop (load : List Byte → α) (fuel : ℕ) (s : TokenLoop α) : Option (TokenLoop α) :=
  whileLoop TokenLoop.more (tokenBody load) fuel s

/-- The part of `setup_custom_mutators` for libraries, with the value `fn` of the variable. -/
def setupCustomMutators (load : List Byte → α) (fuel : ℕ) (limitTimeSig : ℤ)
    (fn : Option (List Byte)) (afl : CustomMutators α) : Option (CustomMutators α) :=
  match fn with
  | none => some afl
  | some value =>
    -- MOpt and custom mutators exclude each other
    if limitTimeSig ≠ 0 ∧ limitTimeSig ≠ -1 then none
    else
      let (fnToken, fn) := strsep isSeparator (some value)
      (tokenLoop load fuel ⟨fnToken, fn, afl⟩).map TokenLoop.afl

/-! ### The tokens of a text -/

/-- What repeated calls of `strsep` deliver. -/
def tokensOf : Option (List Byte) → List (List Byte)
  | none => []
  | some s => s.splitOnP isSeparator

theorem strsep_eq (s : Option (List Byte)) :
    (strsep isSeparator s).1 = (tokensOf s).head? ∧
      tokensOf (strsep isSeparator s).2 = (tokensOf s).tail := by
  cases s with
  | none => exact ⟨rfl, rfl⟩
  | some s =>
    have hsplit := (List.takeWhile_append_dropWhile (p := fun c => !isSeparator c) (l := s)).symm
    have hhead : ∀ c ∈ s.takeWhile fun c => !isSeparator c, isSeparator c = false := by
      intro c hc
      simpa using List.mem_takeWhile_imp hc
    rw [strsep]
    cases hrest : s.dropWhile fun c => !isSeparator c with
    | nil =>
      rw [hrest, List.append_nil] at hsplit
      rw [← hsplit] at hhead
      have htokens : tokensOf (some s) = [s] := List.splitOnP_eq_singleton hhead
      rw [htokens]
      exact ⟨rfl, rfl⟩
    | cons c rest =>
      have hc : isSeparator c = true := by
        have hfirst :=
          List.head_dropWhile_not (fun c => !isSeparator c) (l := s) (by rw [hrest]; simp)
        simpa [hrest] using hfirst
      have htokens : tokensOf (some s) =
          (s.takeWhile fun c => !isSeparator c) :: rest.splitOnP isSeparator := by
        conv_lhs => rw [hsplit, hrest, tokensOf]
        exact List.splitOnP_append_cons_of_forall_mem hhead c hc rest
      rw [htokens]
      exact ⟨rfl, rfl⟩

/-- The token at hand and those that are still to come. -/
def TokenLoop.pending (s : TokenLoop α) : List (List Byte) :=
  match s.fnToken with
  | none => []
  | some token => token :: tokensOf s.fn

theorem pending_strsep (fn : Option (List Byte)) (afl : CustomMutators α) :
    TokenLoop.pending ⟨(strsep isSeparator fn).1, (strsep isSeparator fn).2, afl⟩ =
      tokensOf fn := by
  obtain ⟨hhead, htail⟩ := strsep_eq fn
  unfold TokenLoop.pending
  rw [hhead, htail]
  cases tokensOf fn with
  | nil => rfl
  | cons token rest => rfl

theorem pending_eq_cons {s : TokenLoop α} {token : List Byte} {rest : List (List Byte)}
    (h : s.pending = token :: rest) : s.fnToken = some token ∧ tokensOf s.fn = rest := by
  unfold TokenLoop.pending at h
  split at h
  · cases h
  · rename_i token' htoken
    rw [htoken]
    exact ⟨congrArg some (List.cons.inj h).1, (List.cons.inj h).2⟩

/-! ### The loop -/

/-- A round with a token that is not empty. -/
theorem tokenBody_cons (load : List Byte → α) {s : TokenLoop α} {token : List Byte}
    {rest : List (List Byte)}
    (hpending : s.pending = token :: rest) (hne : token ≠ []) :
    (s.afl.count.toNat + 1 = 2 ^ 32 ∧ tokenBody load s = none) ∨
    (s.afl.count.toNat + 1 < 2 ^ 32 ∧ ∃ t, tokenBody load s = some t ∧ t.pending = rest ∧
      t.afl.list = s.afl.list ++ [load token] ∧ t.afl.count.toNat = s.afl.count.toNat + 1) := by
  obtain ⟨htoken, hrest⟩ := pending_eq_cons hpending
  obtain ⟨c, cs, rfl⟩ := List.exists_cons_of_ne_nil hne
  have hlt := s.afl.count.isLt
  unfold tokenBody
  rw [htoken]
  dsimp only
  split
  · rename_i hwrap
    exact Or.inl ⟨by bv_omega, rfl⟩
  · rename_i hwrap
    refine Or.inr ⟨by bv_omega, _, rfl, ?_, rfl, ?_⟩
    · rw [pending_strsep, hrest]
    · dsimp only
      bv_omega

/-- With tokens that are all there, the loop loads one after the other. -/
theorem tokenLoop_loads (load : List Byte → α) {s : TokenLoop α}
    (hne : ∀ token ∈ s.pending, token ≠ [])
    (hcount : s.afl.count.toNat + s.pending.length < 2 ^ 32) :
    ∃ t, tokenLoop load (s.pending.length + 1) s = some t ∧
      t.afl.list = s.afl.list ++ s.pending.map load := by
  generalize hpending : s.pending = tokens at hne hcount ⊢
  induction tokens generalizing s with
  | nil =>
    have hnone : s.fnToken = none := by
      unfold TokenLoop.pending at hpending
      split at hpending
      · assumption
      · cases hpending
    exact ⟨s, whileLoop_done (by rw [TokenLoop.more, hnone]; rfl), (List.append_nil _).symm⟩
  | cons token rest ih =>
    rw [List.length_cons] at hcount
    obtain ⟨htoken, -⟩ := pending_eq_cons hpending
    rcases tokenBody_cons load hpending (hne _ List.mem_cons_self) with
      ⟨hwrap, -⟩ | ⟨-, t, hbody, ht, hlist, hcount'⟩
    · omega
    · obtain ⟨u, hu, hloaded⟩ := ih ht (fun token' h => hne _ (List.mem_cons_of_mem _ h)) (by omega)
      refine ⟨u, ?_, ?_⟩
      · rw [tokenLoop, whileLoop_step (by rw [TokenLoop.more, htoken]; rfl) hbody]
        exact hu
      · rw [hloaded, hlist, List.append_assoc]
        rfl

/-- The loop ends only when all tokens are there and can be counted. -/
theorem tokens_of_tokenLoop {s t : TokenLoop α} {fuel : ℕ} (h : tokenLoop load fuel s = some t) :
    (∀ token ∈ s.pending, token ≠ []) ∧ s.afl.count.toNat + s.pending.length < 2 ^ 32 := by
  induction fuel generalizing s with
  | zero => cases h
  | succ fuel ih =>
    cases hpending : s.pending with
    | nil => exact ⟨fun _ hmem => absurd hmem List.not_mem_nil, s.afl.count.isLt⟩
    | cons token rest =>
      obtain ⟨htoken, -⟩ := pending_eq_cons hpending
      have hcond : s.more = true := by rw [TokenLoop.more, htoken]; rfl
      by_cases hne : token = []
      · -- an empty token leaves the variables as they are
        have hstuck : tokenBody load s = some s := by
          unfold tokenBody
          rw [htoken, hne]
        rw [tokenLoop, whileLoop_stuck hcond hstuck] at h
        cases h
      · rcases tokenBody_cons load hpending hne with
          ⟨-, hbody⟩ | ⟨hlt, u, hbody, hu, -, hcount⟩
        · rw [tokenLoop, whileLoop, if_pos hcond, hbody] at h
          cases h
        · rw [tokenLoop, whileLoop_step hcond hbody] at h
          obtain ⟨hrest, hlen⟩ := ih h
          rw [hu] at hrest hlen
          refine ⟨fun token' hmem => ?_, ?_⟩
          · rcases List.mem_cons.mp hmem with rfl | hmem
            · exact hne
            · exact hrest _ hmem
          · rw [List.length_cons]
            omega

theorem tokens_of_setupCustomMutators {fuel : ℕ} {limitTimeSig : ℤ} {value : List Byte}
    {afl afl' : CustomMutators α}
    (h : setupCustomMutators load fuel limitTimeSig (some value) afl = some afl') :
    (∀ token ∈ value.splitOnP isSeparator, token ≠ []) ∧
      afl.count.toNat + (value.splitOnP isSeparator).length < 2 ^ 32 := by
  unfold setupCustomMutators at h
  dsimp only at h
  split at h
  · cases h
  · obtain ⟨t, ht, -⟩ := Option.map_eq_some_iff.mp h
    have hall := tokens_of_tokenLoop ht
    rwa [pending_strsep] at hall

/-- The loop ends, and has loaded every token that is not empty once and in order, just when no
token is empty and the tokens can be counted. -/
theorem setupCustomMutators_loads_iff (load : List Byte → α) {limitTimeSig : ℤ}
    (hmopt : limitTimeSig = 0 ∨ limitTimeSig = -1) (value : List Byte) (afl : CustomMutators α) :
    (∃ fuel afl', setupCustomMutators load fuel limitTimeSig (some value) afl = some afl' ∧
      afl'.list = afl.list ++ ((value.splitOnP isSeparator).filter (· ≠ [])).map load) ↔
    (∀ token ∈ value.splitOnP isSeparator, token ≠ []) ∧
      afl.count.toNat + (value.splitOnP isSeparator).length < 2 ^ 32 := by
  constructor
  · rintro ⟨fuel, afl', h, -⟩
    exact tokens_of_setupCustomMutators h
  · rintro ⟨hne, hcount⟩
    have hguard : ¬ (limitTimeSig ≠ 0 ∧ limitTimeSig ≠ -1) := by omega
    have hpending : TokenLoop.pending ⟨(strsep isSeparator (some value)).1,
        (strsep isSeparator (some value)).2, afl⟩ = value.splitOnP isSeparator :=
      pending_strsep (some value) afl
    obtain ⟨t, ht, hlist⟩ := tokenLoop_loads load
      (s := ⟨(strsep isSeparator (some value)).1, (strsep isSeparator (some value)).2, afl⟩)
      (by rwa [hpending]) (by rwa [hpending])
    rw [hpending] at ht hlist
    refine ⟨(value.splitOnP isSeparator).length + 1, t.afl, ?_, ?_⟩
    · unfold setupCustomMutators
      dsimp only
      rw [if_neg hguard, ht]
      rfl
    · rw [hlist, List.filter_eq_self.mpr fun token hmem => decide_eq_true (hne token hmem)]

/-- Two libraries. -/
theorem setupCustomMutators_loads_two :
    ∃ fuel afl', setupCustomMutators id fuel 0 (some [chr 'a', chr ';', chr 'b']) ⟨[], 0⟩ =
      some afl' ∧
      afl'.list = [] ++
        (([chr 'a', chr ';', chr 'b'].splitOnP isSeparator).filter (· ≠ [])).map id :=
  (setupCustomMutators_loads_iff id (Or.inl rfl) [chr 'a', chr ';', chr 'b'] ⟨[], 0⟩).mpr
    ⟨by decide, by decide⟩

/-- A separator at the end of the list. -/
theorem setupCustomMutators_endless :
    ¬ ∃ fuel afl', setupCustomMutators id fuel 0 (some [chr 'a', chr ';']) ⟨[], 0⟩ = some afl' ∧
      afl'.list = [] ++ (([chr 'a', chr ';'].splitOnP isSeparator).filter (· ≠ [])).map id := by
  rintro ⟨fuel, afl', h, -⟩
  exact (tokens_of_setupCustomMutators h).1 [] (by decide) rfl

end AflPlusPlus.Mutation
