import AflPlusPlus.Cmplog.Log

/-!
# The count that the readers of the comparison log find

`input_to_state_stage` skips a site whose count is 0, and `cmp_fuzz` and `rtn_fuzz` look at as many
slots as the count says, at most all of them. The count is a field of six bits that the hooks
increment without a limit; it is compared here with the calls that were made.
-/

namespace AflPlusPlus.Cmplog
open Lib

variable {kind : CmpType}

/-- `loggeds` of `cmp_fuzz` and of `rtn_fuzz`. -/
def CmpHeader.loggeds (h : CmpHeader) : ℕ :=
  if h.hits.toNat > h.type.height then h.type.height else h.hits.toNat

/-- The slots that are looked at after `input_to_state_stage` has read the count. -/
def CmpHeader.visited (h : CmpHeader) : List ℕ :=
  if h.hits = 0 then [] else List.range h.loggeds

theorem CmpHeader.loggeds_eq (h : CmpHeader) : h.loggeds = min h.hits.toNat h.type.height := by
  rw [loggeds]
  split <;> omega

theorem CmpHeader.visited_eq {h : CmpHeader} (hk : h.type = kind ∨ h.hits = 0) :
    h.visited = List.range (min h.hits.toNat kind.height) := by
  rw [visited]
  by_cases h0 : h.hits = 0
  · rw [if_pos h0, h0]
    simp
  · rw [if_neg h0, loggeds_eq, hk.resolve_right h0]

theorem CmpType.height_le (kind : CmpType) : 0 < kind.height ∧ kind.height ≤ 32 := by
  cases kind <;> decide

/-- The header after calls at a site that starts cleared. -/
theorem Site.calls_header (rt : Runtime) (log : ℕ → Bytes) (calls : List (HookCall kind)) :
    let header := (Site.calls rt ⟨.cleared, log⟩ calls).header
    (header.type = kind ∨ header.hits = 0) ∧
      header.hits.toNat = (calls.filterMap (HookCall.entry rt)).length % 64 := by
  intro header
  have hrun : header = ((calls.filterMap (HookCall.entry rt)).foldl Site.store
      ⟨.cleared, log⟩).header := by
    simp only [header, Site.calls_eq]
  by_cases hne : calls.filterMap (HookCall.entry rt) = []
  · rw [hrun, hne]
    exact ⟨Or.inr rfl, rfl⟩
  · obtain ⟨htype, hhits⟩ := Site.stores_hits ⟨.cleared, log⟩ _ (fun _ => rfl) hne
    rw [hrun, hhits]
    exact ⟨Or.inl htype, BitVec.toNat_ofNat _ _⟩

/-- The count agrees with the calls that were logged exactly as long as it has not wrapped, or has
wrapped and come up to the height of the log again. Compared with all calls, those that a hook
dropped must not matter either. -/
theorem logged_count_agrees_iff (rt : Runtime) (log : ℕ → Bytes) (calls : List (HookCall kind)) :
    let header := (Site.calls rt ⟨.cleared, log⟩ calls).header
    let logged := (calls.filterMap (HookCall.entry rt)).length
    (min header.hits.toNat kind.height = min logged kind.height ∧
        header.visited = List.range (min logged kind.height) ↔
      logged < 64 ∨ kind.height ≤ logged % 64) ∧
    (min header.hits.toNat kind.height = min calls.length kind.height ↔
      (logged = calls.length ∨ kind.height ≤ logged) ∧
        (logged < 64 ∨ kind.height ≤ logged % 64)) := by
  intro header logged
  obtain ⟨htype, hhits⟩ := Site.calls_header rt log calls
  have hvisited : header.visited = List.range (min header.hits.toNat kind.height) :=
    CmpHeader.visited_eq htype
  have hcount : header.hits.toNat = logged % 64 := hhits
  have hle : logged ≤ calls.length := List.length_filterMap_le _ _
  obtain ⟨hpos, hheight⟩ := kind.height_le
  rw [hvisited, hcount]
  constructor
  · constructor
    · rintro ⟨hmin, -⟩
      omega
    · intro h
      have hmin : min (logged % 64) kind.height = min logged kind.height := by omega
      exact ⟨hmin, by rw [hmin]⟩
  · omega

/-- After 64 logged comparisons the count is 0 again and the site is skipped. -/
theorem count_wraps_after_64_comparisons :
    let rt : Runtime := ⟨32, 4096, by decide, by decide, by decide⟩
    let calls : List (HookCall .ins) := List.replicate 64 (.hook8 1 2 0)
    let header := (Site.calls rt ⟨.cleared, fun _ _ => 0⟩ calls).header
    (∀ c ∈ calls, (c.entry rt).isSome) ∧ header.hits = 0 ∧ header.visited = [] ∧
      min header.hits.toNat (CmpType.height .ins) ≠ min calls.length (CmpType.height .ins) := by
  intro rt calls header
  have hlogs : (HookCall.hook8 1 2 0).entry rt = some ⟨fun shape => shape < 7, 7, 0, 1, 2, none⟩ :=
    rfl
  have hall : ∀ c ∈ calls, (c.entry rt).isSome := by
    intro c hc
    rw [List.eq_of_mem_replicate hc, hlogs]
    rfl
  have hlength : (calls.filterMap (HookCall.entry rt)).length = 64 := by
    rw [List.filterMap_replicate_of_some hlogs]
    exact List.length_replicate
  obtain ⟨-, hhits⟩ := Site.calls_header rt (fun _ _ => 0) calls
  rw [hlength] at hhits
  have hzero : header.hits = 0 := BitVec.eq_of_toNat_eq hhits
  refine ⟨hall, hzero, if_pos hzero, ?_⟩
  rw [hzero]
  decide

end AflPlusPlus.Cmplog
