import CwStation.Library.Dict
import CwStation.Model.Datasets

/-! # List filters: `apps/smallstack/crud.py` and `apps/mcp/factory.py`

`_apply_list_filters` with the widget metadata that it asks, and the list tool that hands an
agent's arguments to it. -/

namespace CwStation.ListFilters

open Datasets Urlencoded

/-! ## Models -/

/-- The class of a field, as the `isinstance` tests tell it. -/
inductive FieldClass
  /-- a `DateField` or, with the flag, a `DateTimeField` -/
  | date (datetime : Bool)
  | boolean
  | foreignKey
  /-- a `CharField` or a `TextField` -/
  | text
  | other
  deriving DecidableEq, Repr

structure ModelField where
  cls : FieldClass
  /-- `str(verbose_name).capitalize()`. -/
  label : Str
  /-- `flatchoices`, as texts. -/
  choices : List (Str × Str)

structure ValueError where
  lookup : Lookup
  deriving DecidableEq, Repr

/-- A model, with what the database says of its rows. -/
structure Model (Row : Type) where
  /-- `_meta.get_field`. -/
  field : Str → Option ModelField
  /-- The class of the output field of an annotation; `other` where there is none. -/
  annotation : Str → Option FieldClass
  /-- A column as text. -/
  cell : Str → Row → Option Str
  /-- How the database sorts a column. -/
  collate : Str → Option Str → Option Str → Bool
  /-- Key and text of the objects that a foreign key may name; `none` where the query fails. -/
  related : Str → Option (List (Str × Str))
  /-- Whether the manager is called `objects`. -/
  hasObjects : Bool
  holds : Lookup → Row → Bool
  /-- The lookups whose value Django cannot convert. -/
  refuses : Lookup → Bool
  refuses_text : ∀ name f suffix value, field name = some f → f.cls = .text →
    refuses ⟨suffixed name suffix, .text value⟩ = false

variable {Row : Type}

/-! ## Widgets -/

inductive Widget
  | choice
  | boolean
  | text
  deriving DecidableEq, Repr

structure FilterMeta where
  name : Str
  label : Str
  type : Widget
  isDate : Bool := false
  choices : List (Str × Str) := []
  deriving DecidableEq, Repr

def all : Str × Str := ([], "All".toList)

def datePresets : List (Str × Str) :=
  [all, ("today".toList, "Today".toList), ("yesterday".toList, "Yesterday".toList),
    ("week".toList, "Past 7 days".toList), ("month".toList, "This month".toList),
    ("year".toList, "This year".toList)]

/-- `model.objects.values(field_name).distinct()`. -/
def distinctValues (m : Model Row) (table : List Row) (name : Str) : List (Option Str) :=
  (table.map (m.cell name)).dedup

/-- How many values make a dropdown. -/
def dropdownValues : ℕ := 30

/-- `_build_filter_meta`. -/
def buildFilterMeta (m : Model Row) (table : List Row) (name : Str) : Option FilterMeta :=
  (m.field name).bind fun field =>
    match field.cls with
    | .date _ => some { name, label := field.label, type := .choice, isDate := true,
                        choices := datePresets }
    | .boolean =>
        let choices := [all, ("true".toList, "Yes".toList), ("false".toList, "No".toList)]
        some { name, label := field.label, type := .boolean, choices }
    | cls =>
        if field.choices ≠ [] then
          some { name, label := field.label, type := .choice, choices := all :: field.choices }
        else if cls = .foreignKey then
          (m.related name).map fun objects =>
            { name, label := field.label, type := .choice, choices := all :: objects.take 100 }
        else
          let values := distinctValues m table name
          -- a model without `objects` raises here, and the exception is passed over
          if m.hasObjects ∧ values.length ≤ dropdownValues then
            let shown := (values.mergeSort (m.collate name)).take dropdownValues
            some { name, label := field.label, type := .choice,
                   choices := all :: shown.filterMap fun value => value.map fun v => (v, v) }
          else some { name, label := field.label, type := .text }

/-! ## `_apply_list_filters` -/

/-- A `CRUDView`, as far as the search and the filters of its list go. -/
structure View (Row : Type) where
  model : Model Row
  /-- `_resolve_search_fields()`. -/
  searchFields : List Str
  /-- Whether one of the search fields holds a text, a date by its year, month or day. -/
  searchHolds : Str → Row → Bool
  /-- `_resolve_filter_fields()`. -/
  filterFields : List Str
  /-- The `apply_filter` hook, by the rows that it keeps; `none` is `NotImplemented`. -/
  applyFilter : Str → Str → QueryDict → Option (Row → Bool)

/-- What the pipeline makes of a filter field while the table holds these rows. -/
def fieldKind (m : Model Row) (table : List Row) (name : Str) : FieldKind :=
  match m.field name with
  | none =>
      match m.annotation name with
      | none => .unknown
      | some .boolean => .boolean
      | some (.date datetime) => .date datetime
      | some _ => .other
  | some field =>
      match field.cls with
      | .boolean => .boolean
      | .date datetime => .date datetime
      | .text =>
          if (buildFilterMeta m table name).map FilterMeta.type = some .text then .text else .other
      | _ => .other

/-- `qs.filter(**lookups)`. -/
def narrow (m : Model Row) (lookups : List Lookup) (qs : List Row) :
    Except ValueError (List Row) :=
  match lookups.find? m.refuses with
  | some lookup => .error ⟨lookup⟩
  | none => .ok (qs.filter fun row => lookups.all fun l => m.holds l row)

/-- One filter field of `_apply_list_filters`. -/
def applyField (env : Env) (view : View Row) (table : List Row) (request : QueryDict)
    (qs : List Row) (name : Str) : Except ValueError (List Row) :=
  let value := strip (request.get name)
  if value = [] then .ok qs
  else
    match view.applyFilter name value request with
    | some keeps => .ok (qs.filter keeps)
    | none => narrow view.model (fieldLookups env (fieldKind view.model table name) name value) qs

/-- `_apply_list_filters`. -/
def applyListFilters (env : Env) (view : View Row) (table : List Row) (request : QueryDict)
    (qs : List Row) : Except ValueError (List Row) :=
  view.filterFields.foldlM (applyField env view table request) qs

/-! ## The list tool -/

/-- An argument of a tool. What is neither a string nor `null` has a text that is not empty. -/
inductive Argument
  | null
  | str (s : Str)
  | other (text : { s : Str // s ≠ [] })

/-- The text of an argument that is neither `None` nor `""`. -/
def Argument.given : Argument → Option Str
  | .null => none
  | .str s => if s = [] then none else some s
  | .other text => some text

abbrev Arguments := Dict Str Argument

inductive ToolError
  | tooManyFieldsSent
  | value (e : ValueError)
  deriving DecidableEq, Repr

/-- `DATA_UPLOAD_MAX_NUMBER_FIELDS`. -/
def maxFields : ℕ := 1000

/-- `QueryDict(text)`. -/
def queryDict (text : Str) : Except ToolError QueryDict :=
  if maxFields < 1 + text.count '&' then .error .tooManyFieldsSent else .ok (parseQsl text)

def qParam : Str := "q".toList

/-- The search text among the arguments. -/
def searchText (args : Arguments) : Str :=
  match args.get qParam with
  | some (.str s) => strip s
  | _ => []

/-- The filter values among the arguments, under their names. -/
def filterPairs (view : View Row) (args : Arguments) : List (Str × Str) :=
  view.filterFields.filterMap fun name =>
    ((args.get name).bind Argument.given).map fun value => (name, value)

/-- The `GET` that the search helper is called with, if it is. -/
def searchGet (view : View Row) (args : Arguments) : Except ToolError (Option QueryDict) :=
  if searchText args ≠ [] ∧ view.searchFields ≠ [] then
    some <$> queryDict (qParam ++ '=' :: searchText args)
  else .ok none

/-- The `GET` that the filter helper is called with, if it is. -/
def filterGet (view : View Row) (args : Arguments) : Except ToolError (Option QueryDict) :=
  if filterPairs view args ≠ [] then some <$> queryDict (joinPairs (filterPairs view args))
  else .ok none

/-- `_apply_list_search`. -/
def applyListSearch (view : View Row) (request : QueryDict) (qs : List Row) : List Row :=
  let q := strip (request.get qParam)
  if view.searchFields = [] ∨ q = [] then qs else qs.filter (view.searchHolds q)

/-- The rows that the handler of `list_<model>` selects, before it orders and cuts them. -/
def selectRows (env : Env) (view : View Row) (table : List Row) (args : Arguments)
    (qs : List Row) : Except ToolError (List Row) := do
  let searched ← searchGet view args
  let qs := searched.elim qs fun get => applyListSearch view get qs
  match ← filterGet view args with
  | none => return qs
  | some get => (applyListFilters env view table get qs).mapError .value

end CwStation.ListFilters
