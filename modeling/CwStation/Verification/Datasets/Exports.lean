import CwStation.Verification.Datasets.Buckets

/-! # When an export is the whole of what matches

The view asks for one row more than its cap, and the rows come through a limit of their own. -/

namespace CwStation.Datasets

open Urlencoded

variable {Row : Type} (site : RowsEnv Row) (env : Env) (ds : Dataset Row) (q : QueryDict)

/-- A request without `limit` and `offset` for a file. -/
structure ExportRequest : Prop where
  csv : q.get "format".toList = "csv".toList
  limit : q.get "limit".toList = []
  offset : q.get "offset".toList = []

/-- The rows that a request matches: it names a bucket that there is, if any, and an ordering that
the database can sort by, if any. -/
def Matching (matching : List Row) : Prop :=
  ∃ drilldown sorted, requestDrilldown site env.unicode q = .ok drilldown ∧
    scopedQs env ds (requestFilters q) drilldown = .ok matching ∧
    ordered site (q.get "ordering".toList) matching = .ok sorted

/-- A file with every matching row or a 400, and a 400 when more than the cap match. -/
def Whole (cap : ℤ) (matching : List Row) (response : RowsResponse Row) : Prop :=
  ((∃ rows, response = .csv rows ∧ rows.Perm matching) ∨ ∃ error, response = .refused error) ∧
    ((∃ error, response = .refused error) ↔ cap < matching.length)

variable {site env ds q}

/-- Filters alone always match something. -/
theorem matching_of_filters (hbucket : q.get "bucket".toList = [])
    (hdimension : q.get "dimension".toList = []) (hordering : q.get "ordering".toList = []) :
    Matching site env ds q (filteredQs env ds (requestFilters q)) := by
  refine ⟨none, filteredQs env ds (requestFilters q), ?_, rfl, ?_⟩
  · rw [requestDrilldown, hdimension, hbucket, parseDimension]
    exact rfl
  · rw [ordered, if_pos hordering]

/-! ### The limit of the rows -/

theorem lt_clampRows {cap : ℤ} (h : cap < rowsLimitMax) : cap < clampRows (cap + 1) := by
  rw [clampRows]
  rw [rowsLimitMax] at h ⊢
  split <;> omega

theorem clampRows_of_le {cap : ℤ} (h : rowsLimitMax ≤ cap) : clampRows (cap + 1) = rowsLimitMax := by
  rw [clampRows]
  rw [rowsLimitMax] at h ⊢
  split <;> omega

theorem intParam_of_blank {α : Type} (u : Unicode) {name : String} (read : ℤ → α) (default : α)
    (h : q.get name.toList = []) : intParam u q name read default = default := if_pos h

theorem ordered_perm {ordering : Str} {qs sorted : List Row}
    (h : ordered site ordering qs = .ok sorted) : sorted.Perm qs := by
  rw [ordered] at h
  split at h
  · cases h
    exact List.Perm.refl _
  · exact site.sort_perm ordering qs sorted h

/-- What the view makes of the rows it is given. -/
theorem datasetRows_eq (hq : ExportRequest q) {matching : List Row}
    (h : Matching site env ds q matching) : ∃ sorted : List Row, sorted.Perm matching ∧
      datasetRows site env ds q =
        if site.csvMaxRows < (sorted.take (clampRows (site.csvMaxRows + 1)).toNat).length then
          .refused (overCap site.csvMaxRows)
        else .csv (sorted.take (clampRows (site.csvMaxRows + 1)).toNat) := by
  obtain ⟨drilldown, sorted, hdrilldown, hscope, hsorted⟩ := h
  have hlimit : requestLimit site env.unicode q true = site.csvMaxRows + 1 := by
    rw [requestLimit, if_pos rfl, intParam_of_blank _ _ _ hq.limit]
  have hoffset : intParam env.unicode q "offset" id 0 = 0 := intParam_of_blank _ _ _ hq.offset
  have hrows : rows site env ds (requestFilters q) (q.get "ordering".toList)
      (some (site.csvMaxRows + 1)) 0 drilldown =
        .ok (sorted.take (clampRows (site.csvMaxRows + 1)).toNat) := by
    simp only [rows, hscope, bind, Except.bind, hsorted]
    rfl
  refine ⟨sorted, ordered_perm hsorted, ?_⟩
  simp only [datasetRows, hq.csv, decide_true, hlimit, hoffset, hdrilldown, bind, Except.bind, hrows,
    pure, Except.pure, if_true]

theorem whole_of_all {cap : ℤ} {sorted matching : List Row} (hperm : sorted.Perm matching) :
    Whole cap matching (if cap < sorted.length then .refused (overCap cap) else .csv sorted) := by
  rw [hperm.length_eq]
  by_cases hcap : cap < matching.length
  · rw [if_pos hcap]
    exact ⟨.inr ⟨_, rfl⟩, iff_of_true ⟨_, rfl⟩ hcap⟩
  · rw [if_neg hcap]
    exact ⟨.inl ⟨sorted, rfl, hperm⟩, iff_of_false (by simp) hcap⟩

/-- A file with less than what matches. -/
theorem not_whole_of_lt {cap : ℤ} {cut matching : List Row} (h : cut.length < matching.length)
    (hcap : cut.length ≤ cap) :
    ¬Whole cap matching (if cap < cut.length then .refused (overCap cap) else .csv cut) := by
  rw [if_neg (not_lt.mpr hcap)]
  rintro ⟨⟨rows, hrows, hsame⟩ | ⟨error, herror⟩, -⟩
  · cases hrows
    exact h.ne hsame.length_eq
  · cases herror

/-- An export is the whole of what matches just if no more matches than the rows come with, or the
cap is below their limit. -/
theorem export_whole_iff (hq : ExportRequest q) {matching : List Row}
    (h : Matching site env ds q matching) :
    Whole site.csvMaxRows matching (datasetRows site env ds q) ↔
      matching.length ≤ 500 ∨ site.csvMaxRows < 500 := by
  obtain ⟨sorted, hperm, hview⟩ := datasetRows_eq hq h
  have hlength := hperm.length_eq
  rw [hview]
  by_cases hall : sorted.length ≤ (clampRows (site.csvMaxRows + 1)).toNat
  · -- the limit of the rows cuts nothing off
    rw [List.take_of_length_le hall]
    refine iff_of_true (whole_of_all hperm) ?_
    by_contra hno
    rw [not_or, not_le, not_lt] at hno
    rw [clampRows_of_le hno.2, rowsLimitMax] at hall
    omega
  · have htaken := List.length_take_of_le (Nat.le_of_not_le hall)
    by_cases hcap : site.csvMaxRows < 500
    · have hover : site.csvMaxRows < (clampRows (site.csvMaxRows + 1)).toNat :=
        (lt_clampRows hcap).trans_le (Int.self_le_toNat _)
      rw [htaken, if_pos hover]
      exact iff_of_true ⟨.inr ⟨_, rfl⟩, iff_of_true ⟨_, rfl⟩ (by omega)⟩ (.inr hcap)
    · have hlimit : clampRows (site.csvMaxRows + 1) = 500 := clampRows_of_le (not_lt.mp hcap)
      rw [hlimit] at hall htaken ⊢
      exact iff_of_false (not_whole_of_lt (by omega) (by omega)) (by omega)

/-- A station with 501 contacts, and the cap as it is shipped. -/
def longLog : Dataset ℕ where
  source := List.range 501
  columns := [("call".toList, "text".toList)]
  filterable := none
  kind _ := .other
  holds _ _ := true
  cell _ _ := none

def shippedSite : RowsEnv ℕ where
  csvMaxRows := 50000
  loads _ := .ok []
  sort _ qs := .ok qs
  sort_perm _ _ _ h := by
    cases h
    exact List.Perm.refl _

def exportQuery : QueryDict := [("format".toList, "csv".toList)]

theorem exportQuery_request : ExportRequest exportQuery := ⟨by decide, by decide, by decide⟩

theorem longLog_matching : Matching shippedSite plainEnv longLog exportQuery longLog.source := by
  have hfilters : requestFilters exportQuery = [] := by decide
  have hmatching : Matching shippedSite plainEnv longLog exportQuery
      (filteredQs plainEnv longLog (requestFilters exportQuery)) :=
    matching_of_filters (by decide) (by decide) (by decide)
  rwa [hfilters] at hmatching

theorem length_longLog : longLog.source.length = 501 := by
  rw [longLog, List.length_range]

theorem longLog_iff :
    Whole 50000 longLog.source (datasetRows shippedSite plainEnv longLog exportQuery) ↔
      longLog.source.length ≤ 500 ∨ (50000 : ℤ) < 500 :=
  export_whole_iff exportQuery_request longLog_matching

/-- The file ends after 500 of the 501 rows. -/
theorem longLog_cut :
    ¬Whole 50000 longLog.source (datasetRows shippedSite plainEnv longLog exportQuery) := by
  obtain ⟨sorted, hperm, hview⟩ := datasetRows_eq exportQuery_request longLog_matching
  have hlength : sorted.length = 501 := hperm.length_eq.trans length_longLog
  have htaken : (sorted.take 500).length = 500 := List.length_take_of_le (by omega)
  have hlimit : (clampRows (shippedSite.csvMaxRows + 1)).toNat = 500 := by decide
  rw [hview, hlimit]
  apply not_whole_of_lt
  · rw [htaken, length_longLog]
    decide
  · rw [htaken]
    decide

end CwStation.Datasets
