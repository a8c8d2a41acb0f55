import CwStation.Model.Datasets
import CwStation.Verification.Python.Urlencoded

/-! # When the filters of a dataset reach its rows

`_filtered_qs` writes the filters as query text without quoting them, and the pipeline reads
that text back. The filters arrive exactly when each name and value stands for itself. -/

namespace CwStation.Datasets

open Urlencoded

variable {Row : Type}

/-- The flat filters of a dataset: a mapping from declared filter fields to strings that are
not empty. -/
structure FlatFilters (ds : Dataset Row) where
  entries : List (Str × Str)
  unique : Table.Unique Prod.fst entries
  declared : ∀ entry ∈ entries, entry.1 ∈ ds.filterFieldNames
  nonempty : ∀ entry ∈ entries, entry.2 ≠ []

/-- The request carries exactly a mapping: each of its keys once, with its value, and no
other key. -/
def Carries (request : QueryDict) (entries : List (Str × Str)) : Prop :=
  ∀ name, request.getlist name = ((Table.get Prod.fst entries name).map Prod.snd).toList

/-! ### Mappings as lists -/

theorem getlist_of_unique {entries : List (Str × Str)} (h : Table.Unique Prod.fst entries)
    (name : Str) :
    QueryDict.getlist entries name =
      ((Table.get Prod.fst entries name).map Prod.snd).toList := by
  induction entries with
  | nil => rfl
  | cons entry entries ih =>
    obtain ⟨hnotin, hrest⟩ := List.nodup_cons.mp h
    by_cases hname : entry.1 = name
    · have hnone : entries.filter (fun e => e.1 = name) = [] := by
        rw [List.filter_eq_nil_iff]
        intro e he heq
        apply hnotin
        rw [hname, ← of_decide_eq_true heq]
        exact List.mem_map_of_mem he
      simp [QueryDict.getlist, Table.get, hname, hnone]
    · have htail := ih hrest
      simpa [QueryDict.getlist, Table.get, hname] using htail

theorem carries_iff_perm {request : QueryDict} {entries : List (Str × Str)}
    (h : Table.Unique Prod.fst entries) : Carries request entries ↔ request.Perm entries := by
  constructor
  · intro hcarries
    rw [List.perm_iff_count]
    intro entry
    rw [← count_getlist, ← count_getlist, hcarries, getlist_of_unique h]
  · intro hperm name
    have hlist : (request.getlist name).Perm (QueryDict.getlist entries name) :=
      (hperm.filter _).map _
    rw [getlist_of_unique h] at hlist
    cases hget : (Table.get Prod.fst entries name).map Prod.snd with
    | none =>
      rw [hget] at hlist
      exact List.perm_nil.mp hlist
    | some value =>
      rw [hget] at hlist
      exact List.perm_singleton.mp hlist

/-! ### The request -/

/-- The flat filters that are left for the request. -/
def flatPart (ds : Dataset Row) (entries : List (Str × Str)) : List (Str × Str) :=
  (splitRangeFilters ds entries).2.filter fun (_, value) => value ≠ []

theorem filterRequest_eq (ds : Dataset Row) (entries : List (Str × Str)) :
    filterRequest ds entries =
      if joinPairs (flatPart ds entries) = [] then none
      else some (parseQsl (joinPairs (flatPart ds entries))) := rfl

theorem request_eq (ds : Dataset Row) (entries : List (Str × Str)) :
    (filterRequest ds entries).getD [] = parseQsl (joinPairs (flatPart ds entries)) := by
  rw [filterRequest_eq]
  by_cases hpairs : joinPairs (flatPart ds entries) = []
  · rw [if_pos hpairs, hpairs]
    rfl
  · rw [if_neg hpairs]
    rfl

/-- Whether a filter is left for the request. -/
def isFlat (ds : Dataset Row) (entries : List (Str × Str)) (entry : Str × Str) : Bool :=
  (boundedColumn ds entry.1).isNone &&
    (entry.1 ∉ (splitRangeFilters ds entries).1.filterMap fun (key, _) => boundedColumn ds key) &&
    entry.2 ≠ []

theorem flatPart_eq (ds : Dataset Row) (entries : List (Str × Str)) :
    flatPart ds entries = entries.filter (isFlat ds entries) := by
  simp only [flatPart, splitRangeFilters, List.filter_filter]
  apply List.filter_congr
  intro entry _
  simp only [isFlat, splitRangeFilters, Bool.and_comm]

/-- No filter of the mapping is a half-open bound. -/
def Unbounded (ds : Dataset Row) (entries : List (Str × Str)) : Prop :=
  ∀ entry ∈ entries, boundedColumn ds entry.1 = none

theorem rangePart_of_unbounded {ds : Dataset Row} {entries : List (Str × Str)}
    (h : Unbounded ds entries) : (splitRangeFilters ds entries).1 = [] := by
  simp only [splitRangeFilters, List.filter_eq_nil_iff]
  intro entry hentry
  simp [h entry hentry]

theorem flatPart_of_unbounded {ds : Dataset Row} (f : FlatFilters ds)
    (h : Unbounded ds f.entries) : flatPart ds f.entries = f.entries := by
  rw [flatPart_eq, List.filter_eq_self]
  intro entry hentry
  simp [isFlat, h entry hentry, f.nonempty entry hentry, rangePart_of_unbounded h]

/-- A mapping that arrives whole lost no filter on the way: what is read holds no more than
what was written. -/
theorem unbounded_of_perm {ds : Dataset Row} (f : FlatFilters ds)
    (hperm : (parseQsl (joinPairs (flatPart ds f.entries))).Perm f.entries) :
    Unbounded ds f.entries := by
  obtain ⟨hread, hpieces⟩ := size_parseQsl_le (flatPart ds f.entries)
    fun entry hentry => f.nonempty _ (hperm.mem_iff.mp hentry)
  rw [(hperm.map size).sum_eq, hperm.length_eq] at hread
  rw [hperm.length_eq] at hpieces
  have hsub : (flatPart ds f.entries).Sublist f.entries := flatPart_eq ds _ ▸ List.filter_sublist
  have hsize : ((flatPart ds f.entries).map size).sum ≤ (f.entries.map size).sum :=
    (hsub.map size).sum_le_sum fun _ _ => Nat.zero_le _
  have hlength := hsub.length_le
  have hwhole := hsub.eq_of_length (by omega)
  rw [flatPart_eq, List.filter_eq_self] at hwhole
  intro entry hentry
  have hflat := hwhole entry hentry
  simp only [isFlat, Bool.and_eq_true, Option.isNone_iff_eq_none] at hflat
  exact hflat.1.1

/-! ### The rows -/

/-- A row meets a filter: the pipeline's reading of the value lets it through. -/
def meets (env : Env) (ds : Dataset Row) (entry : Str × Str) (row : Row) : Bool :=
  strip entry.2 = [] ||
    (fieldLookups env (ds.kind entry.1) entry.1 (strip entry.2)).all fun l => ds.holds l row

theorem applyListFilters_eq (env : Env) (ds : Dataset Row) (request : QueryDict)
    (qs : List Row) :
    applyListFilters env ds request qs =
      qs.filter fun row =>
        ds.filterFieldNames.all fun name => meets env ds (name, request.get name) row := by
  unfold applyListFilters
  induction ds.filterFieldNames generalizing qs with
  | nil => simp
  | cons name names ih =>
    rw [List.foldl_cons, ih]
    by_cases hvalue : strip (request.get name) = []
    · simp [meets, hvalue]
    · simp [meets, hvalue, narrow, List.filter_filter, Bool.and_comm]

theorem get_of_perm {entries : List (Str × Str)} {request : QueryDict}
    (hunique : Table.Unique Prod.fst entries) (hperm : request.Perm entries) (name : Str) :
    request.get name = ((Table.get Prod.fst entries name).map Prod.snd).getD [] := by
  rw [QueryDict.get, (carries_iff_perm hunique).mpr hperm name]
  cases (Table.get Prod.fst entries name).map Prod.snd <;> rfl

/-- The rows a request that carries the mapping leaves are those that meet its filters. -/
theorem applyListFilters_of_perm (env : Env) {ds : Dataset Row} (f : FlatFilters ds)
    {request : QueryDict} (hperm : request.Perm f.entries) (qs : List Row) :
    applyListFilters env ds request qs =
      qs.filter fun row => f.entries.all fun entry => meets env ds entry row := by
  rw [applyListFilters_eq]
  apply List.filter_congr
  intro row _
  rw [Bool.eq_iff_iff, List.all_eq_true, List.all_eq_true]
  constructor
  · intro h entry hentry
    have hname := h entry.1 (f.declared entry hentry)
    rw [get_of_perm f.unique hperm, Table.get_of_mem f.unique hentry] at hname
    exact hname
  · intro h name _
    rw [get_of_perm f.unique hperm]
    cases hget : Table.get Prod.fst f.entries name with
    | none => rfl
    | some entry =>
      rw [← Table.key_of_get hget]
      exact h entry (Table.get_mem hget)

theorem joinPairs_ne_nil {pairs : List (Str × Str)} (h : pairs ≠ []) : joinPairs pairs ≠ [] := by
  intro hnil
  have hne : pairs.map pairText ≠ [] := by simpa using h
  have hlength := length_intercalate '&' hne
  rw [← joinPairs_eq, hnil, sum_pairText_length, List.length_map] at hlength
  have hpos := List.length_pos_iff.mpr h
  simp only [List.length_nil] at hlength
  omega

/-- The condition of the theorem below: every name and value is read as it is written, and
no key of the mapping is a half-open bound. -/
def Literal (ds : Dataset Row) (entries : List (Str × Str)) : Prop :=
  ∀ entry ∈ entries, Urlencoded.Plain entry ∧ boundedColumn ds entry.1 = none

theorem filteredQs_of_literal (env : Env) {ds : Dataset Row} (f : FlatFilters ds)
    (h : Literal ds f.entries) :
    filteredQs env ds f.entries =
      ds.source.filter fun row => f.entries.all fun entry => meets env ds entry row := by
  have hplain : ∀ entry ∈ f.entries, Urlencoded.Plain entry := fun entry hentry => (h entry hentry).1
  have hunbounded : Unbounded ds f.entries := fun entry hentry => (h entry hentry).2
  have hread := (parseQsl_joinPairs_perm_iff f.nonempty).mpr hplain
  unfold filteredQs
  by_cases hnil : f.entries = []
  · simp [hnil]
  · have hrange : narrow ds (rangeLookups env ds f.entries) ds.source = ds.source := by
      simp [rangeLookups, rangePart_of_unbounded hunbounded, narrow]
    rw [if_neg hnil, filterRequest_eq, flatPart_of_unbounded f hunbounded,
      if_neg (joinPairs_ne_nil hnil), hrange]
    exact applyListFilters_of_perm env f hread ds.source

/-- The request carries the filters exactly when they stand for themselves, and then the
rows that are read are those that meet every filter. -/
theorem filters_carried_iff (env : Env) (ds : Dataset Row) (f : FlatFilters ds) :
    (Carries ((filterRequest ds f.entries).getD []) f.entries ↔ Literal ds f.entries) ∧
      (Carries ((filterRequest ds f.entries).getD []) f.entries →
        filteredQs env ds f.entries =
          ds.source.filter fun row => f.entries.all fun entry => meets env ds entry row) := by
  have hiff : Carries ((filterRequest ds f.entries).getD []) f.entries ↔
      Literal ds f.entries := by
    rw [carries_iff_perm f.unique, request_eq]
    constructor
    · intro hperm
      have hunbounded := unbounded_of_perm f hperm
      rw [flatPart_of_unbounded f hunbounded] at hperm
      exact fun entry hentry =>
        ⟨plain_of_perm f.nonempty hperm entry hentry, hunbounded entry hentry⟩
    · intro h
      rw [flatPart_of_unbounded f fun entry hentry => (h entry hentry).2]
      exact (parseQsl_joinPairs_perm_iff f.nonempty).mpr fun entry hentry => (h entry hentry).1
  exact ⟨hiff, fun h => filteredQs_of_literal env f (hiff.mp h)⟩

/-! ### A value that adds a filter -/

/-- Requests with a path and a method, filtered exactly. -/
def requestLog : Dataset (Str × Str) where
  source := [("/a".toList, "GET".toList)]
  columns := [("path".toList, "text".toList), ("method".toList, "text".toList)]
  filterable := none
  kind _ := .other
  holds l row :=
    l.arg = .text (if l.key = "path".toList then row.1 else row.2)
  cell row field := some (if field = "path".toList then row.1 else row.2)

/-- A filter on the path alone, by a path with a query. -/
def pathFilter : FlatFilters requestLog where
  entries := [("path".toList, "/a&method=POST".toList)]
  unique := List.nodup_singleton _
  declared := by decide
  nonempty := by decide

/-- The filter on the path drops its value's end and filters the method. -/
theorem value_adds_filter :
    filterRequest requestLog pathFilter.entries =
        some [("path".toList, "/a".toList), ("method".toList, "POST".toList)] ∧
      ¬Carries ((filterRequest requestLog pathFilter.entries).getD []) pathFilter.entries := by
  have hrequest : filterRequest requestLog pathFilter.entries =
      some [("path".toList, "/a".toList), ("method".toList, "POST".toList)] := by
    decide +kernel
  refine ⟨hrequest, ?_⟩
  intro hcarries
  have hmethod := hcarries "method".toList
  rw [hrequest] at hmethod
  exact absurd hmethod (by decide)

end CwStation.Datasets
