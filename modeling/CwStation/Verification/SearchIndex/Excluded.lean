import CwStation.Verification.SearchIndex.Entries
import Mathlib.Data.List.Induction

/-! # Rows that are excluded from search

`filter_searchable_queryset` is documented as called before indexing. No writer of the index
calls it: what is found depends on what was saved, reindexed or rebuilt. -/

namespace CwStation.SearchIndex

variable {κ ρ : Type} [DecidableEq κ] {engine : Engine} {view : View ρ} {store : Store κ ρ}
  {filterSearchable : List (κ × ρ) → List (κ × ρ)}

/-! ## What is found -/

theorem mem_query {matching : Matching κ} {text : Str} {limit : ℕ} {r : κ × ρ}
    (h : r ∈ query matching store text limit) : r ∈ store.rows ∧ Indexed store r.1 := by
  obtain ⟨e, he, hget⟩ := List.mem_filterMap.mp h
  have hmatched := matching.order_mem _ _ e (List.mem_of_mem_take he)
  refine ⟨Table.get_mem hget, ?_⟩
  rw [Indexed, Table.key_of_get hget]
  exact List.mem_map_of_mem (List.mem_of_mem_filter hmatched)

/-- A query returns only rows the view's filter keeps, whatever the database finds. -/
def OnlyKept (filterSearchable : List (κ × ρ) → List (κ × ρ)) (store : Store κ ρ) : Prop :=
  ∀ (matching : Matching κ) (text : Str) (limit : ℕ), ∀ r ∈ query matching store text limit,
    r ∈ filterSearchable store.rows

/-- The index has entries of kept rows only. -/
def KeptIndexed (filterSearchable : List (κ × ρ) → List (κ × ρ)) (store : Store κ ρ) : Prop :=
  ∀ r ∈ store.rows, Indexed store r.1 → r ∈ filterSearchable store.rows

theorem KeptIndexed.onlyKept (h : KeptIndexed filterSearchable store) :
    OnlyKept filterSearchable store := by
  intro matching text limit r hr
  obtain ⟨hrow, hindexed⟩ := mem_query hr
  exact h r hrow hindexed

/-! ## What a step indexes -/

/-- The table after a step. -/
def Step.rowsAfter (rows : List (κ × ρ)) : Step κ ρ → List (κ × ρ)
  | .save pk row => saveRow pk row rows
  | .delete pk => rows.filter fun r => r.1 ≠ pk
  | .reindex _ _ => rows
  | .rebuild => rows

/-- The rows a step indexes. -/
def Step.Indexes (rows : List (κ × ρ)) (pk : κ) : Step κ ρ → Prop
  | .save saved _ => pk = saved
  | .delete _ => False
  | .reindex objects _ => pk ∈ resolvePks rows objects
  | .rebuild => True

theorem rows_apply (engine : Engine) (view : View ρ) (store : Store κ ρ) (step : Step κ ρ) :
    (step.apply engine view store).rows = step.rowsAfter store.rows := by
  cases step with
  | save pk row => exact rows_indexObject engine view _ _
  | delete pk =>
    cases engine with
    | sqlite => rfl
    | postgres => rfl
  | reindex objects chunkSize => exact rows_indexBatches engine view chunkSize _ store
  | rebuild => exact rows_rebuild engine view store

/-- A step leaves no entries but those there were and those of the rows it indexes. -/
theorem indexed_of_apply {step : Step κ ρ} {pk : κ}
    (h : Indexed (step.apply engine view store) pk) :
    Indexed store pk ∨ step.Indexes store.rows pk := by
  cases step with
  | save saved row => exact indexed_of_indexObject h
  | delete deleted => exact .inl (indexed_of_onDelete h).1
  | reindex objects chunkSize => exact indexed_of_indexBatches h
  | rebuild => exact .inr trivial

/-! ## Runs -/

/-- A step indexes rows the filter keeps, and the rows indexed before are kept in the table
it makes. -/
def KeepsFilter (filterSearchable : List (κ × ρ) → List (κ × ρ)) (store : Store κ ρ)
    (step : Step κ ρ) : Prop :=
  ∀ r ∈ step.rowsAfter store.rows, Indexed store r.1 ∨ step.Indexes store.rows r.1 →
    r ∈ filterSearchable (step.rowsAfter store.rows)

theorem keptIndexed_apply {step : Step κ ρ} (h : KeepsFilter filterSearchable store step) :
    KeptIndexed filterSearchable (step.apply engine view store) := by
  intro r hr hindexed
  rw [rows_apply] at hr ⊢
  exact h r hr (indexed_of_apply hindexed)

theorem run_concat (engine : Engine) (view : View ρ) (store : Store κ ρ) (steps : List (Step κ ρ))
    (step : Step κ ρ) : run engine view store (steps ++ [step]) =
      step.apply engine view (run engine view store steps) := by
  simp [run]

theorem keptIndexed_run {steps : List (Step κ ρ)} (hstart : KeptIndexed filterSearchable store)
    (h : ∀ before step after, steps = before ++ step :: after →
      KeepsFilter filterSearchable (run engine view store before) step) :
    KeptIndexed filterSearchable (run engine view store steps) := by
  cases steps using List.reverseRecOn with
  | nil => exact hstart
  | append_singleton steps step =>
    rw [run_concat]
    exact keptIndexed_apply (h steps step [] rfl)

/-- Excluded rows are not found in any state of a run whose steps all keep the filter. -/
theorem excluded_rows_not_found {steps : List (Step κ ρ)}
    (hstart : KeptIndexed filterSearchable store)
    (h : ∀ before step after, steps = before ++ step :: after →
      KeepsFilter filterSearchable (run engine view store before) step)
    {before after : List (Step κ ρ)} (hsteps : steps = before ++ after) :
    OnlyKept filterSearchable (run engine view store before) := by
  apply KeptIndexed.onlyKept
  apply keptIndexed_run hstart
  intro first step rest hfirst
  exact h first step (rest ++ after) (by simp [hsteps, hfirst])

/-! ## Tickets -/

/-- A ticket with its title, and whether it is archived. -/
abbrev Ticket := Str × Bool

def ticketView : View Ticket where
  fields := ["title".toList]
  text ticket _ := ticket.1
  castText ticket _ := ticket.1
  setBased := true

/-- `qs.filter(archived=False)`. -/
def notArchived (tickets : List (ℕ × Ticket)) : List (ℕ × Ticket) :=
  tickets.filter fun t => !t.2.2

/-- A search for whole titles. -/
def titleMatching : Matching ℕ where
  found text titles := titles.contains text
  order _ entries := entries
  order_mem _ _ _ h := h

def brokenRig (archived : Bool) : Step ℕ Ticket := .save 1 ("rig".toList, archived)

/-- A ticket that is open and stays so. -/
theorem open_ticket_kept :
    OnlyKept notArchived (run .sqlite ticketView ⟨[], []⟩ [brokenRig false]) := by
  have hstart : KeptIndexed notArchived ⟨[], []⟩ := by
    intro r hr
    cases hr
  have hkeeps : ∀ before step after, [brokenRig false] = before ++ step :: after →
      KeepsFilter notArchived (run .sqlite ticketView ⟨[], []⟩ before) step := by
    intro before step after hsteps
    cases before with
    | nil =>
        obtain ⟨rfl, -⟩ := List.cons.inj hsteps
        intro r hr _
        exact (show ∀ r ∈ [(1, ("rig".toList, false))], r ∈ notArchived _ by decide) r hr
    | cons first before => simp at hsteps
  exact excluded_rows_not_found hstart hkeeps (List.append_nil _).symm

/-- A ticket that is archived is still found, on either backend. -/
theorem archived_ticket_found :
    ¬OnlyKept notArchived (run .sqlite ticketView ⟨[], []⟩ [brokenRig false, brokenRig true]) ∧
      ¬OnlyKept notArchived
        (run .postgres ticketView ⟨[], []⟩ [brokenRig false, brokenRig true]) := by
  constructor
  · intro h
    have hfound := h titleMatching "rig".toList 10 (1, "rig".toList, true)
    exact absurd (hfound (by decide +kernel)) (by decide +kernel)
  · intro h
    have hfound := h titleMatching "rig".toList 10 (1, "rig".toList, true)
    exact absurd (hfound (by decide +kernel)) (by decide +kernel)

end CwStation.SearchIndex
