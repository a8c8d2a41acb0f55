import CwStation.Model.BulkDelete
import Mathlib.Data.List.Induction
import Mathlib.Tactic.Common

/-! # What a bulk delete reports and logs

The entry of an object is written before its delete is tried, and stays when that fails; an id
that comes again finds the object of its row already deleted. -/

namespace CwStation.BulkDelete

variable {κ : Type} {view : View κ} {ids : List (κ × Outcome κ)} {x : κ × Outcome κ} {pk : κ}

/-! ## The deletes that are tried -/

/-- The delete of an object that is still there is tried. -/
def Attempted (view : View κ) (pk : κ) : Prop :=
  view.visible pk = true ∧ view.canDelete ⟨pk, some pk⟩ = true ∧ view.permits ⟨pk, some pk⟩ = true

instance (view : View κ) (pk : κ) : Decidable (Attempted view pk) :=
  inferInstanceAs (Decidable (_ ∧ _))

/-- The ids whose delete is tried. -/
def tried (view : View κ) (ids : List (κ × Outcome κ)) : List (κ × Outcome κ) :=
  ids.filter fun x => Attempted view x.1

theorem mem_tried : x ∈ tried view ids ↔ x ∈ ids ∧ Attempted view x.1 := by
  simp [tried]

theorem mem_map_fst_tried (hx : x ∈ ids) :
    x.1 ∈ (tried view ids).map Prod.fst ↔ Attempted view x.1 := by
  constructor
  · intro hmem
    obtain ⟨y, hy, heq⟩ := List.mem_map.mp hmem
    exact heq ▸ (mem_tried.mp hy).2
  · exact fun hattempted => List.mem_map_of_mem (mem_tried.mpr ⟨hx, hattempted⟩)

/-- No id that may be deleted comes twice, and no delete raises. -/
structure Smooth (view : View κ) (ids : List (κ × Outcome κ)) : Prop where
  once : ((tried view ids).map Prod.fst).Nodup
  returns : ∀ x ∈ tried view ids, x.2.returns = true

theorem Smooth.init (h : Smooth view (ids ++ [x])) : Smooth view ids := by
  obtain ⟨honce, hreturns⟩ := h
  rw [tried, List.filter_append] at honce hreturns
  rw [List.map_append] at honce
  exact ⟨honce.of_append_left, fun y hy => hreturns y (List.mem_append_left _ hy)⟩

/-- The row that a delete takes, and those that go with it. -/
theorem Outcome.mem_rows {outcome : Outcome κ} {row : κ} (h : row ∈ outcome.rows pk) :
    row = pk ∨ row ∈ outcome.cascade := by
  cases outcome <;> simp_all [Outcome.rows, Outcome.cascade]

theorem Outcome.cascade_subset_rows {outcome : Outcome κ} :
    outcome.cascade ⊆ outcome.rows pk := by
  cases outcome <;> simp [Outcome.rows, Outcome.cascade]

theorem Outcome.mem_rows_self {outcome : Outcome κ} (hreturns : outcome.returns = true)
    (hgone : outcome ≠ .gone) : pk ∈ outcome.rows pk := by
  cases outcome <;> simp_all [Outcome.rows, Outcome.returns]

/-- Of two entries of the list with one id, whose delete is tried, there is only one. -/
theorem Smooth.eq_of_fst (h : Smooth view ids) {y : κ × Outcome κ} (hx : x ∈ tried view ids)
    (hy : y ∈ tried view ids) (heq : x.1 = y.1) : x = y :=
  List.inj_on_of_nodup_map h.once hx hy heq

variable [DecidableEq κ] {logs : Instance κ → List LogEntry} {s : Progress κ}

/-! ## One round -/

/-- A round deletes its object. -/
def Deletes (view : View κ) (s : Progress κ) (x : κ × Outcome κ) : Prop :=
  x.1 ∉ s.deletedIds ∧ Attempted view x.1 ∧ x.2.returns = true

instance (view : View κ) (s : Progress κ) (x : κ × Outcome κ) : Decidable (Deletes view s x) :=
  inferInstanceAs (Decidable (_ ∧ _))

theorem object_of_notMem (h : pk ∉ s.deletedIds) : s.object pk = ⟨pk, some pk⟩ := by
  rw [Progress.object, if_neg h]

theorem object_of_mem (h : pk ∈ s.deletedIds) : s.object pk = ⟨pk, none⟩ := by
  rw [Progress.object, if_pos h]

/-- The round of an object that is still there and may be deleted. -/
theorem step_of_attempted (h : x.1 ∉ s.deletedIds) (hattempted : Attempted view x.1) :
    step view logs s x =
      if x.2.returns = true then
        { s with
          entries := s.entries ++ logs ⟨x.1, some x.1⟩
          deletedIds := s.deletedIds ++ [x.1]
          removed := s.removed ++ x.2.rows x.1 }
      else
        Progress.fail view { s with entries := s.entries ++ logs ⟨x.1, some x.1⟩ } x.1
          x.2.error := by
  obtain ⟨hvisible, hcan, hpermits⟩ := hattempted
  have hobject : ({ s with entries := s.entries ++ logs ⟨x.1, some x.1⟩ } : Progress κ).object x.1 =
      ⟨x.1, some x.1⟩ := object_of_notMem h
  rw [step, if_pos hvisible, object_of_notMem h, if_pos ⟨hcan, hpermits⟩]
  simp only [Progress.delete, hobject]
  cases x.2 <;> simp [Outcome.returns, Outcome.rows]

/-- Any other round fails, and writes an entry only for an object that is deleted already. -/
theorem step_of_not_attempted (logs : Instance κ → List LogEntry)
    (h : x.1 ∈ s.deletedIds ∨ ¬Attempted view x.1) :
    ∃ entries text, step view logs s x =
        Progress.fail view { s with entries := s.entries ++ entries } x.1 text ∧
      (x.1 ∉ s.deletedIds → entries = []) := by
  have hnone : ∀ text, s.fail view x.1 text =
      Progress.fail view { s with entries := s.entries ++ [] } x.1 text := by
    intro text
    rw [List.append_nil]
  rw [step]
  split
  · next hvisible =>
      split
      · next hallowed =>
          have hmem : x.1 ∈ s.deletedIds := by
            by_contra hmem
            rw [object_of_notMem hmem] at hallowed
            exact h.resolve_left hmem ⟨hvisible, hallowed⟩
          refine ⟨logs (s.object x.1), (Outcome.unexpected : Outcome κ).error, ?_,
            fun hnot => absurd hmem hnot⟩
          have hobject : ({ s with entries := s.entries ++ logs (s.object x.1) } :
              Progress κ).object x.1 = ⟨x.1, none⟩ := object_of_mem hmem
          simp only [Progress.delete, hobject]
      · exact ⟨[], _, hnone _, fun _ => rfl⟩
  · exact ⟨[], _, hnone _, fun _ => rfl⟩

theorem deletedIds_step : (step view logs s x).deletedIds =
    if Deletes view s x then s.deletedIds ++ [x.1] else s.deletedIds := by
  by_cases h : x.1 ∈ s.deletedIds ∨ ¬Attempted view x.1
  · obtain ⟨entries, text, hstep, -⟩ := step_of_not_attempted logs h
    rw [hstep, if_neg fun hdeletes => h.elim hdeletes.1 fun hnot => hnot hdeletes.2.1]
    rfl
  · obtain ⟨hmem, hattempted⟩ := not_or.mp h
    rw [step_of_attempted hmem (not_not.mp hattempted)]
    by_cases hreturns : x.2.returns <;>
      simp [Deletes, hreturns, hmem, not_not.mp hattempted, Progress.fail]

theorem mem_deletedIds_step : pk ∈ (step view logs s x).deletedIds ↔
    pk ∈ s.deletedIds ∨ pk = x.1 ∧ Attempted view x.1 ∧ x.2.returns = true := by
  rw [deletedIds_step]
  by_cases hmem : x.1 ∈ s.deletedIds
  · rw [if_neg fun hdeletes => hdeletes.1 hmem]
    exact ⟨Or.inl, fun h => h.elim id fun h => h.1 ▸ hmem⟩
  · simp only [Deletes, hmem, not_false_eq_true, true_and]
    split <;> simp_all

/-- A round that does not delete leaves an error. -/
theorem keys_errors_step {key : Str} : key ∈ (step view logs s x).errors.keys ↔
    key ∈ s.errors.keys ∨ ¬Deletes view s x ∧ key = view.str x.1 := by
  by_cases h : x.1 ∈ s.deletedIds ∨ ¬Attempted view x.1
  · obtain ⟨entries, text, hstep, -⟩ := step_of_not_attempted logs h
    have hnot : ¬Deletes view s x := fun hdeletes => h.elim hdeletes.1 fun hnot => hnot hdeletes.2.1
    rw [hstep, Progress.fail, Dict.mem_keys_set]
    simp [hnot]
  · obtain ⟨hmem, hattempted⟩ := not_or.mp h
    rw [step_of_attempted hmem (not_not.mp hattempted)]
    by_cases hreturns : x.2.returns <;>
      simp [Deletes, hreturns, hmem, not_not.mp hattempted, Progress.fail, Dict.mem_keys_set]

theorem entries_step_of_attempted (h : x.1 ∉ s.deletedIds) (hattempted : Attempted view x.1) :
    (step view logs s x).entries = s.entries ++ logs ⟨x.1, some x.1⟩ := by
  rw [step_of_attempted h hattempted]
  split <;> rfl

/-- The entries that are written stay. -/
theorem entries_subset_step : s.entries ⊆ (step view logs s x).entries := by
  by_cases h : x.1 ∈ s.deletedIds ∨ ¬Attempted view x.1
  · obtain ⟨entries, text, hstep, -⟩ := step_of_not_attempted logs h
    rw [hstep]
    exact List.subset_append_left _ _
  · obtain ⟨hmem, hattempted⟩ := not_or.mp h
    rw [entries_step_of_attempted hmem (not_not.mp hattempted)]
    exact List.subset_append_left _ _

/-! ## Every run -/

theorem run_concat : run view logs (ids ++ [x]) = step view logs (run view logs ids) x := by
  simp [run]

/-- The ids that are deleted are those whose delete is tried and returns. -/
theorem mem_deletedIds_run : pk ∈ (run view logs ids).deletedIds ↔
    Attempted view pk ∧ ∃ x ∈ ids, x.1 = pk ∧ x.2.returns = true := by
  induction ids using List.reverseRecOn with
  | nil => simp [run]
  | append_singleton ids x ih =>
    rw [run_concat, mem_deletedIds_step, ih]
    constructor
    · rintro (⟨hattempted, y, hy, hreturns⟩ | ⟨rfl, hattempted, hreturns⟩)
      · exact ⟨hattempted, y, List.mem_append_left _ hy, hreturns⟩
      · exact ⟨hattempted, x, by simp, rfl, hreturns⟩
    · rintro ⟨hattempted, y, hy, rfl, hreturns⟩
      rcases List.mem_append.mp hy with hy | hy
      · exact Or.inl ⟨hattempted, y, hy, rfl, hreturns⟩
      · obtain rfl := List.mem_singleton.mp hy
        exact Or.inr ⟨rfl, hattempted, hreturns⟩

theorem nodup_deletedIds_run : (run view logs ids).deletedIds.Nodup := by
  induction ids using List.reverseRecOn with
  | nil => exact List.nodup_nil
  | append_singleton ids x ih =>
    rw [run_concat, deletedIds_step]
    split
    · next hdeletes => simpa using List.Nodup.concat hdeletes.1 ih
    · exact ih

/-- An id that comes more often than it is deleted has an error. -/
theorem count_deletedIds_run (h : view.str pk ∉ (run view logs ids).errors.keys) :
    (run view logs ids).deletedIds.count pk = (ids.map Prod.fst).count pk := by
  induction ids using List.reverseRecOn with
  | nil => rfl
  | append_singleton ids x ih =>
    rw [run_concat, keys_errors_step, not_or] at h
    rw [run_concat, deletedIds_step, List.map_append, List.count_append, ← ih h.1]
    split
    · rw [List.count_append]
      rfl
    · next hdeletes =>
        have hne : x.1 ≠ pk := fun hpk => h.2 ⟨hdeletes, hpk ▸ rfl⟩
        simp [hne]

/-- So has an id whose delete raises. -/
theorem mem_errors_of_raises (hx : x ∈ ids) (hraises : ¬x.2.returns) :
    view.str x.1 ∈ (run view logs ids).errors.keys := by
  induction ids using List.reverseRecOn with
  | nil => exact absurd hx List.not_mem_nil
  | append_singleton ids y ih =>
    rw [run_concat, keys_errors_step]
    rcases List.mem_append.mp hx with hx | hx
    · exact Or.inl (ih hx)
    · rw [List.mem_singleton.mp hx] at hraises ⊢
      exact Or.inr ⟨fun hdeletes => hraises hdeletes.2.2, rfl⟩

/-- Every object whose delete is tried has its entries. -/
theorem logs_subset_entries (logs : Instance κ → List LogEntry) (hx : x ∈ ids) (hattempted : Attempted view x.1) :
    logs ⟨x.1, some x.1⟩ ⊆ (run view logs ids).entries := by
  induction ids using List.reverseRecOn generalizing x with
  | nil => exact absurd hx List.not_mem_nil
  | append_singleton ids y ih =>
    rw [run_concat]
    by_cases hbefore : x.1 ∈ (run view logs ids).deletedIds
    · obtain ⟨-, z, hz, heq, -⟩ := mem_deletedIds_run.mp hbefore
      have hsub := ih hz (heq ▸ hattempted)
      rw [heq] at hsub
      exact List.Subset.trans hsub entries_subset_step
    · rcases List.mem_append.mp hx with hx | hx
      · exact List.Subset.trans (ih hx hattempted) entries_subset_step
      · obtain rfl := List.mem_singleton.mp hx
        rw [entries_step_of_attempted hbefore hattempted]
        exact List.subset_append_right _ _

/-! ## Runs in which every delete that is tried returns -/

/-- Such a run deletes what it tries. -/
structure Done (view : View κ) (logs : Instance κ → List LogEntry) (ids : List (κ × Outcome κ))
    (s : Progress κ) : Prop where
  deletedIds : s.deletedIds = (tried view ids).map Prod.fst
  entries : s.entries = (tried view ids).flatMap fun x => logs ⟨x.1, some x.1⟩
  removed : s.removed = (tried view ids).flatMap fun x => x.2.rows x.1
  errors : ∀ key, key ∈ s.errors.keys ↔ ∃ x ∈ ids, ¬Attempted view x.1 ∧ key = view.str x.1

theorem Smooth.done (h : Smooth view ids) : Done view logs ids (run view logs ids) := by
  induction ids using List.reverseRecOn with
  | nil => exact ⟨rfl, rfl, rfl, by simp [run, Dict.keys, Dict.empty]⟩
  | append_singleton ids x ih =>
    have hbefore := ih h.init
    rw [run_concat]
    by_cases hattempted : Attempted view x.1
    · have htried : tried view (ids ++ [x]) = tried view ids ++ [x] := by
        simp [tried, hattempted]
      have hreturns : x.2.returns = true := h.returns x (htried ▸ by simp)
      have hfresh : x.1 ∉ (run view logs ids).deletedIds := by
        have honce := h.once
        rw [htried, List.map_append, List.nodup_append] at honce
        rw [hbefore.deletedIds]
        exact fun hmem => honce.2.2 _ hmem _ (by simp) rfl
      rw [step_of_attempted hfresh hattempted, if_pos hreturns]
      refine ⟨?_, ?_, ?_, fun key => ?_⟩
      · simp [htried, hbefore.deletedIds]
      · simp [htried, hbefore.entries]
      · simp [htried, hbefore.removed]
      · simp [hbefore.errors, or_and_right, exists_or, hattempted]
    · have htried : tried view (ids ++ [x]) = tried view ids := by
        simp [tried, hattempted]
      obtain ⟨entries, text, hstep, hnone⟩ := step_of_not_attempted
        (s := run view logs ids) logs (Or.inr hattempted)
      have hfresh : x.1 ∉ (run view logs ids).deletedIds := fun hmem =>
        hattempted (mem_deletedIds_run.mp hmem).1
      rw [hstep, hnone hfresh, List.append_nil]
      refine ⟨?_, ?_, ?_, fun key => ?_⟩
      · simp [htried, Progress.fail, hbefore.deletedIds]
      · simp [htried, Progress.fail, hbefore.entries]
      · simp [htried, Progress.fail, hbefore.removed]
      · simp [Progress.fail, Dict.mem_keys_set, hbefore.errors, or_and_right, exists_or,
          hattempted]

/-! ## What is told -/

/-- The number of entries for the object of a row. -/
def entriesOf (view : View κ) (s : Progress κ) (pk : κ) : ℕ :=
  s.entries.countP fun entry => entry.objectId = view.str pk

/-- An id is in one of `deleted` and `errors`, in `deleted` exactly when its row is removed, and
the entries are as many as the removals. -/
structure Told (view : View κ) (s : Progress κ) (pk : κ) : Prop where
  exactly_one : pk ∈ s.deletedIds ↔ view.str pk ∉ s.errors.keys
  removed : pk ∈ s.deletedIds ↔ pk ∈ s.removed
  entries : entriesOf view s pk = if pk ∈ s.removed then 1 else 0

/-- Every delete that is tried returns, and the rows that cascade are in order: a row that is gone
by its turn went with another of the list, and no row that may not be deleted did. -/
structure Orderly (view : View κ) (ids : List (κ × Outcome κ)) : Prop where
  smooth : Smooth view ids
  gone : ∀ x ∈ tried view ids, x.2 = .gone → ∃ y ∈ tried view ids, x.1 ∈ y.2.cascade
  kept : ∀ x ∈ ids, ¬Attempted view x.1 → ∀ y ∈ tried view ids, x.1 ∉ y.2.cascade

variable {user : ℕ}

/-- The entries of a run in which every delete that is tried returns. -/
theorem Smooth.entriesOf (h : Smooth view ids) :
    entriesOf view (apiBulkDelete view user ids) pk =
      ((tried view ids).map Prod.fst).count pk := by
  have hdone : Done view (logWrite view user "REST API (bulk)".toList) ids _ := h.done
  rw [BulkDelete.entriesOf, apiBulkDelete, hdone.entries]
  induction tried view ids with
  | nil => rfl
  | cons x l ih =>
    rw [List.flatMap_cons, List.countP_append, ih, List.map_cons, List.count_cons, Nat.add_comm]
    simp [logWrite, Instance.strPk, view.str_injective.eq_iff]

/-- The rows that an orderly run removes are those that it tries to delete. -/
theorem Orderly.mem_removed (h : Orderly view ids) (hx : x ∈ ids) :
    (∃ y ∈ tried view ids, x.1 ∈ y.2.rows y.1) ↔ Attempted view x.1 := by
  constructor
  · rintro ⟨y, hy, hrow⟩
    by_contra hnot
    rcases Outcome.mem_rows hrow with heq | hcascade
    · exact hnot (heq ▸ (mem_tried.mp hy).2)
    · exact h.kept x hx hnot y hy hcascade
  · intro hattempted
    have htried : x ∈ tried view ids := mem_tried.mpr ⟨hx, hattempted⟩
    by_cases hgone : x.2 = .gone
    · obtain ⟨y, hy, hcascade⟩ := h.gone x htried hgone
      exact ⟨y, hy, Outcome.cascade_subset_rows hcascade⟩
    · exact ⟨x, htried, Outcome.mem_rows_self (h.smooth.returns x htried) hgone⟩

/-- An orderly run tells what it did. -/
theorem Orderly.told (h : Orderly view ids) (hx : x ∈ ids) :
    Told view (apiBulkDelete view user ids) x.1 := by
  have hdone : Done view (logWrite view user "REST API (bulk)".toList) ids _ := h.smooth.done
  have hdeleted : x.1 ∈ (apiBulkDelete view user ids).deletedIds ↔ Attempted view x.1 := by
    rw [apiBulkDelete, hdone.deletedIds, mem_map_fst_tried hx]
  have hremoved : x.1 ∈ (apiBulkDelete view user ids).removed ↔ Attempted view x.1 := by
    rw [apiBulkDelete, hdone.removed, List.mem_flatMap, h.mem_removed hx]
  have herrors : view.str x.1 ∈ (apiBulkDelete view user ids).errors.keys ↔
      ¬Attempted view x.1 := by
    rw [apiBulkDelete, hdone.errors]
    constructor
    · rintro ⟨y, -, hnot, heq⟩
      rwa [view.str_injective heq]
    · exact fun hnot => ⟨x, hx, hnot, rfl⟩
  refine ⟨by rw [hdeleted, herrors, not_not], hdeleted.trans hremoved.symm, ?_⟩
  rw [h.smooth.entriesOf]
  by_cases hattempted : Attempted view x.1
  · rw [if_pos (hremoved.mpr hattempted)]
    exact List.count_eq_one_of_mem h.smooth.once ((mem_map_fst_tried hx).mpr hattempted)
  · rw [if_neg fun hmem => hattempted (hremoved.mp hmem)]
    exact List.count_eq_zero_of_not_mem fun hmem => hattempted ((mem_map_fst_tried hx).mp hmem)

/-- An id whose delete is tried has an entry: so, where it is told what happened, it is deleted. -/
theorem Told.deleted (h : Told view (apiBulkDelete view user ids) x.1) (hx : x ∈ ids)
    (hattempted : Attempted view x.1) : x.1 ∈ (apiBulkDelete view user ids).deletedIds := by
  have hsub := logs_subset_entries (logWrite view user "REST API (bulk)".toList) hx hattempted
  have hpos : 0 < entriesOf view (apiBulkDelete view user ids) x.1 := by
    refine List.countP_pos_iff.mpr ⟨_, hsub (List.mem_singleton.mpr rfl), ?_⟩
    simp [Instance.strPk]
  rw [h.entries] at hpos
  by_contra hnot
  rw [h.removed] at hnot
  simp [hnot] at hpos

theorem smooth_of_told (h : ∀ x ∈ ids, Told view (apiBulkDelete view user ids) x.1) :
    Smooth view ids := by
  have hquiet : ∀ x ∈ tried view ids,
      view.str x.1 ∉ (apiBulkDelete view user ids).errors.keys := by
    intro x hx
    obtain ⟨hin, hattempted⟩ := mem_tried.mp hx
    exact (h x hin).exactly_one.mp ((h x hin).deleted hin hattempted)
  constructor
  · rw [List.nodup_iff_count_le_one]
    intro pk
    by_cases hpk : pk ∈ (tried view ids).map Prod.fst
    · obtain ⟨x, hx, rfl⟩ := List.mem_map.mp hpk
      calc ((tried view ids).map Prod.fst).count x.1
          ≤ (ids.map Prod.fst).count x.1 := (List.filter_sublist.map _).count_le _
        _ = (apiBulkDelete view user ids).deletedIds.count x.1 :=
            (count_deletedIds_run (hquiet x hx)).symm
        _ ≤ 1 := List.nodup_iff_count_le_one.mp nodup_deletedIds_run _
    · rw [List.count_eq_zero_of_not_mem hpk]
      exact Nat.zero_le 1
  · intro x hx
    by_contra hraises
    exact hquiet x hx (mem_errors_of_raises (mem_tried.mp hx).1 hraises)

/-- A bulk delete tells what happened exactly when every delete that is tried returns, no id comes
twice for it, and the rows that cascade are in order. -/
theorem told_iff_orderly :
    (∀ x ∈ ids, Told view (apiBulkDelete view user ids) x.1) ↔ Orderly view ids := by
  refine ⟨fun h => ?_, fun h x hx => h.told hx⟩
  have hsmooth : Smooth view ids := smooth_of_told h
  have hdone : Done view (logWrite view user "REST API (bulk)".toList) ids _ := hsmooth.done
  have hremoved : ∀ x ∈ ids, x.1 ∈ (apiBulkDelete view user ids).removed ↔
      Attempted view x.1 := by
    intro x hx
    rw [← (h x hx).removed, apiBulkDelete, hdone.deletedIds, mem_map_fst_tried hx]
  refine ⟨hsmooth, fun x hx hgone => ?_, fun x hx hnot y hy hcascade => ?_⟩
  · obtain ⟨hin, hattempted⟩ := mem_tried.mp hx
    have hmem := (hremoved x hin).mpr hattempted
    rw [apiBulkDelete, hdone.removed, List.mem_flatMap] at hmem
    obtain ⟨y, hy, hrow⟩ := hmem
    rcases Outcome.mem_rows hrow with heq | hcascade
    · -- a row that is gone does not take itself
      obtain rfl := hsmooth.eq_of_fst hx hy heq
      simp [hgone, Outcome.rows] at hrow
    · exact ⟨y, hy, hcascade⟩
  · refine hnot ((hremoved x hx).mp ?_)
    rw [apiBulkDelete, hdone.removed, List.mem_flatMap]
    exact ⟨y, hy, Outcome.cascade_subset_rows hcascade⟩

/-- A view of which every row may be deleted. -/
def openView : View Str where
  visible _ := true
  canDelete _ := true
  permits _ := true
  str := id
  str_injective := Function.injective_id

/-- One id, of a row that another record protects. -/
def protectedRow : List (Str × Outcome Str) := [(['7'], .linked ["Order".toList])]

/-- The row stays, and so does the entry that says it was deleted. -/
theorem protected_row_logged :
    ¬∀ x ∈ protectedRow, Told openView (apiBulkDelete openView 1 protectedRow) x.1 := by
  intro h
  have hentries := (h _ (List.mem_singleton.mpr rfl)).entries
  revert hentries
  decide

/-- An id that comes twice is reported as deleted and as failed. -/
example : (apiBulkDelete openView 1 [(['7'], .removed []), (['7'], .removed [])]).deletedIds = [['7']] ∧
    (apiBulkDelete openView 1 [(['7'], .removed []), (['7'], .removed [])]).errors.keys = [['7']] := by
  decide

end CwStation.BulkDelete
