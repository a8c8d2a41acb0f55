import CwStation.Model.ListFilters
import CwStation.Verification.Python.Strings
import CwStation.Verification.Python.Urlencoded
import Mathlib.Data.Char
import Mathlib.Data.List.Lex

/-! # What a list filter selects, and what an agent's arguments select

How a text column is compared is read off the table: a column of few values is a dropdown and
is compared as a whole, any other by its substrings. The list tool spells its arguments as
query text without quoting them. -/

namespace CwStation.ListFilters

open Datasets Urlencoded

variable {Row : Type}

/-- A row is among those that a request selects. -/
def Kept (env : Env) (view : View Row) (table : List Row) (request : QueryDict)
    (qs : List Row) (row : Row) : Prop :=
  ∃ rows, applyListFilters env view table request qs = .ok rows ∧ row ∈ rows

/-- Few enough values stand in a column for a dropdown. -/
def Dropdown (m : Model Row) (table : List Row) (name : Str) : Prop :=
  m.hasObjects = true ∧ (distinctValues m table name).length ≤ dropdownValues

instance (m : Model Row) (table : List Row) (name : Str) : Decidable (Dropdown m table name) :=
  inferInstanceAs (Decidable (_ ∧ _))

/-! ### One filter field -/

/-- How a text column is compared with a value. -/
def comparison (m : Model Row) (table : List Row) (name value : Str) : Lookup :=
  if Dropdown m table name then ⟨name, .text value⟩
  else ⟨suffixed name "__icontains", .text value⟩

/-- What the filter of a text column asks of a row. -/
def textKeeps (view : View Row) (table : List Row) (name value : Str) (row : Row) : Bool :=
  if strip value = [] then true
  else
    match view.applyFilter name (strip value) [(name, value)] with
    | some keeps => keeps row
    | none => view.model.holds (comparison view.model table name (strip value)) row

theorem get_single (name value other : Str) :
    QueryDict.get [(name, value)] other = if name = other then value else [] := by
  by_cases h : name = other
  · simp [QueryDict.get, QueryDict.getlist, h]
  · simp [QueryDict.get, QueryDict.getlist, h]

theorem narrow_single {m : Model Row} {lookup : Lookup} (h : m.refuses lookup = false)
    (qs : List Row) : narrow m [lookup] qs = .ok (qs.filter (m.holds lookup)) := by
  simp [narrow, h]

section TextColumn

variable {view : View Row} {name : Str} {field : ModelField}
  (hfield : view.model.field name = some field) (htext : field.cls = .text)
  (hchoices : field.choices = [])

include hfield htext hchoices

theorem fieldKind_text (table : List Row) :
    fieldKind view.model table name = if Dropdown view.model table name then .other else .text := by
  by_cases h : Dropdown view.model table name
  · have hfew := h
    unfold Dropdown at hfew
    simp [fieldKind, buildFilterMeta, hfield, htext, hchoices, h, hfew]
  · have hmany := h
    unfold Dropdown at hmany
    simp [fieldKind, buildFilterMeta, hfield, htext, hchoices, h, hmany]

theorem fieldLookups_text (env : Env) (table : List Row) (value : Str) :
    fieldLookups env (fieldKind view.model table name) name value =
      [comparison view.model table name value] := by
  rw [fieldKind_text hfield htext hchoices]
  by_cases h : Dropdown view.model table name
  · simp [comparison, h, fieldLookups]
  · simp [comparison, h, fieldLookups]

omit hchoices in
theorem accepts_comparison (table : List Row) (value : Str) :
    view.model.refuses (comparison view.model table name value) = false := by
  by_cases h : Dropdown view.model table name
  · have hexact := view.model.refuses_text name field "" value hfield htext
    simpa [comparison, h, suffixed] using hexact
  · simpa [comparison, h] using view.model.refuses_text name field "__icontains" value hfield htext

/-- Of the fields of the view only the one that the request names keeps rows back. -/
theorem applyField_text (env : Env) (table qs : List Row) (value other : Str) :
    applyField env view table [(name, value)] qs other =
      .ok (qs.filter fun row =>
        decide (name = other → textKeeps view table name value row = true)) := by
  by_cases hother : name = other
  · subst hother
    by_cases hblank : strip value = []
    · simp [applyField, get_single, textKeeps, hblank]
    · cases hhook : view.applyFilter name (strip value) [(name, value)] with
      | some keeps => simp [applyField, get_single, textKeeps, hblank, hhook]
      | none =>
        have hnarrow := narrow_single
          (accepts_comparison hfield htext table (strip value)) qs
        simp [applyField, get_single, textKeeps, hblank, hhook,
          fieldLookups_text hfield htext hchoices, hnarrow]
  · simp [applyField, get_single, hother, show strip [] = [] from rfl]

end TextColumn

/-! ### The loop over the filter fields -/

theorem foldlM_filter {κ ε : Type} {step : List Row → κ → Except ε (List Row)}
    {keeps : κ → Row → Bool} (hstep : ∀ qs k, step qs k = .ok (qs.filter (keeps k)))
    (ks : List κ) (qs : List Row) :
    ks.foldlM step qs = .ok (qs.filter fun row => ks.all fun k => keeps k row) := by
  induction ks generalizing qs with
  | nil => simp [List.foldlM, pure, Except.pure]
  | cons k ks ih =>
    rw [List.foldlM_cons, hstep]
    change ks.foldlM step (qs.filter (keeps k)) = _
    rw [ih, List.filter_filter]
    simp [Bool.and_comm]

theorem kept_text_iff {view : View Row} {name : Str} {field : ModelField}
    (hfield : view.model.field name = some field) (htext : field.cls = .text)
    (hchoices : field.choices = []) (hname : name ∈ view.filterFields) (env : Env)
    (table qs : List Row) (value : Str) (row : Row) :
    Kept env view table [(name, value)] qs row ↔
      row ∈ qs ∧ textKeeps view table name value row = true := by
  have hrun : applyListFilters env view table [(name, value)] qs = .ok (qs.filter fun row =>
      view.filterFields.all fun other =>
        decide (name = other → textKeeps view table name value row = true)) :=
    foldlM_filter (fun qs other => applyField_text hfield htext hchoices env table qs value other)
      view.filterFields qs
  constructor
  · rintro ⟨rows, hrows, hmem⟩
    rw [hrun, Except.ok.injEq] at hrows
    rw [← hrows, List.mem_filter, List.all_eq_true] at hmem
    exact ⟨hmem.1, of_decide_eq_true (hmem.2 name hname) rfl⟩
  · intro h
    refine ⟨_, hrun, List.mem_filter.mpr ⟨h.1, List.all_eq_true.mpr fun other _ => ?_⟩⟩
    exact decide_eq_true fun _ => h.2

/-! ### Two tables -/

/-- A text filter decides about a row alike in two tables that both hold it exactly when it is
blank, or the hook of the view decides, or both tables make the column a dropdown or neither
does, or the two comparisons agree on the row. -/
theorem kept_alike_iff (env : Env) (view : View Row) {name : Str} {field : ModelField}
    (hname : name ∈ view.filterFields) (hfield : view.model.field name = some field)
    (htext : field.cls = .text) (hchoices : field.choices = []) (value : Str)
    (table table' qs qs' : List Row) {row : Row} (hrow : row ∈ qs) (hrow' : row ∈ qs') :
    (Kept env view table [(name, value)] qs row ↔ Kept env view table' [(name, value)] qs' row) ↔
      strip value = [] ∨ (view.applyFilter name (strip value) [(name, value)]).isSome = true ∨
        (Dropdown view.model table name ↔ Dropdown view.model table' name) ∨
          view.model.holds ⟨name, .text (strip value)⟩ row =
            view.model.holds ⟨suffixed name "__icontains", .text (strip value)⟩ row := by
  rw [kept_text_iff hfield htext hchoices hname, kept_text_iff hfield htext hchoices hname]
  simp only [hrow, hrow', true_and, textKeeps]
  by_cases hblank : strip value = []
  · simp [hblank]
  cases hhook : view.applyFilter name (strip value) [(name, value)] with
  | some keeps => simp [hblank]
  | none =>
      by_cases h : Dropdown view.model table name
      · by_cases h' : Dropdown view.model table' name
        · simp [hblank, comparison, h, h']
        · simp [hblank, comparison, h, h']
      · by_cases h' : Dropdown view.model table' name
        · simp only [hblank, comparison, h, h', if_true, if_false, Bool.coe_iff_coe, false_or,
            Option.isSome_none, Bool.false_eq_true, iff_true]
          exact eq_comm
        · simp [hblank, comparison, h, h']

/-- Whether a text holds another, whatever the case of their letters. -/
def contains (text part : Str) : Bool :=
  (text.map Char.toLower).tails.any fun rest => (part.map Char.toLower).isPrefixOf rest

/-- A table of names. -/
def people : Model Str where
  field name :=
    if name = "name".toList then some { cls := .text, label := "Name".toList, choices := [] }
    else none
  annotation _ := none
  cell _ row := some row
  collate _ a b := decide (a.getD [] ≤ b.getD [])
  related _ := none
  hasObjects := true
  holds lookup row :=
    match lookup.arg with
    | .text value =>
        if lookup.key = "name".toList then row == value else contains row value
    | _ => false
  refuses _ := false
  refuses_text _ _ _ _ _ _ := rfl

def peopleView : View Str where
  model := people
  searchFields := ["name".toList]
  searchHolds value row := contains row value
  filterFields := ["name".toList]
  applyFilter _ _ _ := none

def asciiEnv : Env where
  unicode := .ascii
  today := { ordinal := 739000, month := 5, year := 2024 }
  fromIso _ := none
  collate a b := decide (a.getD [] ≤ b.getD [])
  aliasAllowed _ := true
  other_allowed := rfl

def anna : Str := "Anna".toList

/-- Anna with thirty others. -/
def crowd : List Str := anna :: (List.range 30).map fun n => List.replicate (n + 1) 'x'

/-- While Anna is alone no row answers to `ann`; once thirty others have joined her she does. -/
theorem crowd_changes_filter :
    ¬(Kept asciiEnv peopleView [anna] [("name".toList, "ann".toList)] [anna] anna ↔
      Kept asciiEnv peopleView crowd [("name".toList, "ann".toList)] crowd anna) := by
  intro h
  have hcrowd : applyListFilters asciiEnv peopleView crowd [("name".toList, "ann".toList)] crowd =
      .ok [anna] := by decide +kernel
  have halone : applyListFilters asciiEnv peopleView [anna] [("name".toList, "ann".toList)] [anna] =
      .ok [] := by decide +kernel
  obtain ⟨rows, hrows, hmem⟩ := h.mpr ⟨_, hcrowd, List.mem_singleton_self _⟩
  rw [halone, Except.ok.injEq] at hrows
  rw [← hrows] at hmem
  exact absurd hmem (List.not_mem_nil)

theorem crowd_alike :
    (Kept asciiEnv peopleView [anna] [("name".toList, anna)] [anna] anna ↔
        Kept asciiEnv peopleView crowd [("name".toList, anna)] crowd anna) ↔
      strip anna = [] ∨ (peopleView.applyFilter "name".toList (strip anna)
          [("name".toList, anna)]).isSome = true ∨
        (Dropdown peopleView.model [anna] "name".toList ↔
          Dropdown peopleView.model crowd "name".toList) ∨
          peopleView.model.holds ⟨"name".toList, .text (strip anna)⟩ anna =
            peopleView.model.holds ⟨suffixed "name".toList "__icontains",
              .text (strip anna)⟩ anna :=
  kept_alike_iff asciiEnv peopleView (by decide) rfl rfl rfl anna [anna] crowd [anna] crowd
    (by decide) (by decide)

/-! ### The arguments of the list tool -/

/-- A `GET` answers for every name as the pairs do. -/
def Answers (request pairs : QueryDict) : Prop :=
  ∀ name, request.getlist name = pairs.getlist name

/-- The helpers that the tool calls see the search text, and the filter values under their
names, and nothing else. -/
structure Faithful (view : View Row) (args : Arguments) : Prop where
  search : searchText args ≠ [] → view.searchFields ≠ [] →
    ∃ get, searchGet view args = .ok (some get) ∧ Answers get [(qParam, searchText args)]
  filters : filterPairs view args ≠ [] →
    ∃ get, filterGet view args = .ok (some get) ∧ Answers get (filterPairs view args)

/-- The search text and the filter values stand for themselves in query text, and there are
not too many. -/
structure Spelled (view : View Row) (args : Arguments) : Prop where
  search : searchText args ≠ [] → view.searchFields ≠ [] →
    '&' ∉ searchText args ∧ '+' ∉ searchText args ∧ hasEscape (searchText args) = false
  filters : ∀ entry ∈ filterPairs view args, Plain entry
  few : (filterPairs view args).length ≤ maxFields

theorem given_ne {a : Argument} {value : Str} (h : a.given = some value) : value ≠ [] := by
  cases a with
  | null => simp [Argument.given] at h
  | str s =>
    by_cases hs : s = []
    · simp [Argument.given, hs] at h
    · simp only [Argument.given, hs, if_false, Option.some.injEq] at h
      exact h ▸ hs
  | other text =>
    simp only [Argument.given, Option.some.injEq] at h
    exact h ▸ text.property

theorem filterPairs_ne {view : View Row} {args : Arguments} {entry : Str × Str}
    (h : entry ∈ filterPairs view args) : entry.2 ≠ [] := by
  obtain ⟨name, -, hname⟩ := List.mem_filterMap.mp h
  obtain ⟨value, hvalue, rfl⟩ := Option.map_eq_some_iff.mp hname
  obtain ⟨a, -, ha⟩ := Option.bind_eq_some_iff.mp hvalue
  exact given_ne ha

theorem plain_qParam {text : Str} :
    Plain (qParam, text) ↔ '&' ∉ text ∧ '+' ∉ text ∧ hasEscape text = false := by
  constructor
  · intro h
    exact ⟨h.value_amp, h.value_plus, h.value_escape⟩
  · intro h
    exact
      { name_amp := show '&' ∉ qParam by decide, name_eq := show '=' ∉ qParam by decide,
        name_plus := show '+' ∉ qParam by decide,
        name_escape := show hasEscape qParam = false by decide, value_amp := h.1,
        value_plus := h.2.1, value_escape := h.2.2 }

/-- The separators of query text are those between its pairs and those inside them. -/
theorem count_joinPairs {pairs : List (Str × Str)} (hne : pairs ≠ []) :
    1 + (joinPairs pairs).count '&' =
      ((pairs.map pairText).map (List.count '&')).sum + pairs.length := by
  have hcount := @count_intercalate '&' (pairs.map pairText) (by simpa using hne)
  rw [← joinPairs_eq, List.length_map] at hcount
  omega

theorem count_of_plain {pairs : List (Str × Str)} (hne : pairs ≠ [])
    (hplain : ∀ entry ∈ pairs, Plain entry) : 1 + (joinPairs pairs).count '&' = pairs.length := by
  have hzero : ∀ n ∈ (pairs.map pairText).map (List.count '&'), n = 0 := by
    intro n hn
    obtain ⟨text, htext, rfl⟩ := List.mem_map.mp hn
    exact List.count_eq_zero.mpr (not_amp_of_plain hplain text htext)
  rw [count_joinPairs hne, List.sum_eq_zero hzero, Nat.zero_add]

theorem queryDict_of_plain {pairs : List (Str × Str)} (hne : pairs ≠ [])
    (hplain : ∀ entry ∈ pairs, Plain entry) (hfew : pairs.length ≤ maxFields) :
    queryDict (joinPairs pairs) = .ok pairs := by
  rw [queryDict, count_of_plain hne hplain, if_neg (by omega), parseQsl_joinPairs hplain]

/-- Query text answers as its pairs do exactly when they stand for themselves and are not too
many. -/
theorem answers_queryDict_iff {pairs : List (Str × Str)} (hne : pairs ≠ [])
    (hvalue : ∀ entry ∈ pairs, entry.2 ≠ []) :
    (∃ get, queryDict (joinPairs pairs) = .ok get ∧ Answers get pairs) ↔
      (∀ entry ∈ pairs, Plain entry) ∧ pairs.length ≤ maxFields := by
  constructor
  · intro h
    obtain ⟨get, hget, hanswers⟩ := h
    by_cases hmany : maxFields < 1 + (joinPairs pairs).count '&'
    · simp [queryDict, hmany] at hget
    · simp only [queryDict, hmany, if_false, Except.ok.injEq] at hget
      subst hget
      have hplain := (getlist_parseQsl_iff hvalue).mp hanswers
      rw [count_of_plain hne hplain] at hmany
      exact ⟨hplain, not_lt.mp hmany⟩
  · intro h
    exact ⟨pairs, queryDict_of_plain hne h.1 h.2, fun _ => rfl⟩

theorem map_some_ok {ε α : Type} {x : Except ε α} {a : α} :
    some <$> x = .ok (some a) ↔ x = .ok a := by
  cases x <;> simp [Functor.map, Except.map]

/-- The helpers see the arguments exactly when these stand for themselves in query text. -/
theorem faithful_iff (view : View Row) (args : Arguments) :
    Faithful view args ↔ Spelled view args := by
  have hsearch : searchText args ≠ [] → view.searchFields ≠ [] →
      ((∃ get, searchGet view args = .ok (some get) ∧ Answers get [(qParam, searchText args)]) ↔
        '&' ∉ searchText args ∧ '+' ∉ searchText args ∧ hasEscape (searchText args) = false) := by
    intro htext hfields
    have hone := @answers_queryDict_iff [(qParam, searchText args)] (by simp)
      (by simpa using htext)
    simp only [searchGet, htext, hfields, ne_eq, not_false_eq_true, and_self, if_true, map_some_ok,
      ← plain_qParam]
    simpa [joinPairs, maxFields] using hone
  have hfilters : filterPairs view args ≠ [] →
      ((∃ get, filterGet view args = .ok (some get) ∧ Answers get (filterPairs view args)) ↔
        (∀ entry ∈ filterPairs view args, Plain entry) ∧
          (filterPairs view args).length ≤ maxFields) := by
    intro hpairs
    simp only [filterGet, hpairs, ne_eq, not_false_eq_true, if_true, map_some_ok]
    exact answers_queryDict_iff hpairs fun _ => filterPairs_ne
  constructor
  · intro h
    have hpairs : (∀ entry ∈ filterPairs view args, Plain entry) ∧
        (filterPairs view args).length ≤ maxFields := by
      by_cases hnil : filterPairs view args = []
      · simp [hnil]
      · exact (hfilters hnil).mp (h.filters hnil)
    exact
      { search := fun htext hfields => (hsearch htext hfields).mp (h.search htext hfields)
        filters := hpairs.1
        few := hpairs.2 }
  · intro h
    exact
      { search := fun htext hfields => (hsearch htext hfields).mpr (h.search htext hfields)
        filters := fun hpairs => (hfilters hpairs).mpr ⟨h.filters, h.few⟩ }

/-- The people whose name holds `Marks & Co`. -/
def marks : Arguments :=
  ⟨[("name".toList, .str "Marks & Co".toList)], List.nodup_singleton _⟩

/-- The helper is asked for `Marks ` alone. -/
theorem ampersand_cuts_filter : ¬Faithful peopleView marks := by
  intro h
  obtain ⟨get, hget, hanswers⟩ := h.filters (by decide)
  have hcut : filterGet peopleView marks =
      .ok (some [("name".toList, "Marks ".toList), (" Co".toList, [])]) := by decide +kernel
  rw [hcut, Except.ok.injEq, Option.some.injEq] at hget
  subst hget
  exact absurd (hanswers "name".toList) (by decide +kernel)

/-! ### What the tool selects -/

end CwStation.ListFilters
