import CwStation.Model.Urlencoded
import CwStation.Library.Table
import Mathlib.Data.List.Dedup
import Mathlib.Data.List.Sort

/-! # Datasets

The read operations of a registered dataset: the filters that `rows`, `count`, `series` and
`scalar` share, and the bucketed grouping with its drilldown. Rows stand behind what the
database answers about them. -/

namespace CwStation.Datasets

open Urlencoded

/-! ## What the database and the clock answer -/

/-- `timezone.localdate()`. -/
structure Today where
  ordinal : ℤ
  month : ℕ
  year : ℕ

/-- What a lookup compares with. -/
inductive Arg
  | flag (value : Bool)
  | text (value : Str)
  | day (ordinal : ℤ)
  | number (n : ℕ)
  | moment (instant : ℤ)
  deriving DecidableEq, Repr

/-- One keyword of `qs.filter(...)`, under its full spelling. -/
structure Lookup where
  key : Str
  arg : Arg
  deriving DecidableEq, Repr

/-- What the pipeline asks of the model about a filter field. -/
inductive FieldKind
  /-- a `BooleanField`, of the model or of an annotation -/
  | boolean
  /-- a `DateField` or, with the flag, a `DateTimeField` -/
  | date (datetime : Bool)
  /-- a text field whose widget is a text box -/
  | text
  /-- any other field or annotation -/
  | other
  /-- neither a field nor an annotation -/
  | unknown

/-- What the read operations take from outside: Python's Unicode tables, the day,
`datetime.fromisoformat` (and `date.fromisoformat` behind it), the order in which the
database sorts a nullable text column, and Django's check of the alias of an aggregate. -/
structure Env where
  unicode : Unicode
  today : Today
  fromIso : Str → Option ℤ
  collate : Option Str → Option Str → Bool
  aliasAllowed : Str → Bool
  /-- a plain word is an alias -/
  other_allowed : aliasAllowed "other".toList = true

/-- A dataset: its queryset for the request, its resolved columns with their types, and
what the database says of a row. `cell` is the value of a text column. -/
structure Dataset (Row : Type) where
  source : List Row
  columns : List (Str × Str)
  filterable : Option (List Str)
  kind : Str → FieldKind
  holds : Lookup → Row → Bool
  cell : Row → Str → Option Str

variable {Row : Type}

namespace Dataset

def columnNames (ds : Dataset Row) : List Str := ds.columns.map Prod.fst

def filterFieldNames (ds : Dataset Row) : List Str := ds.filterable.getD ds.columnNames

end Dataset

/-! ## The CRUD list pipeline -/

def suffixed (name : Str) (suffix : String) : Str := name ++ suffix.toList

/-- The keywords one filter field is applied with. -/
def fieldLookups (env : Env) (kind : FieldKind) (name value : Str) : List Lookup :=
  match kind with
  | .unknown => []
  | .boolean =>
      let lowered := env.unicode.lower value
      if lowered ∈ ["true".toList, "1".toList, "yes".toList] then [⟨name, .flag true⟩]
      else if lowered ∈ ["false".toList, "0".toList, "no".toList] then [⟨name, .flag false⟩]
      else []
  | .date datetime =>
      let day := if datetime then suffixed name "__date" else name
      let today := env.today
      if value = "today".toList then [⟨day, .day today.ordinal⟩]
      else if value = "yesterday".toList then [⟨day, .day (today.ordinal - 1)⟩]
      else if value = "week".toList then [⟨suffixed day "__gte", .day (today.ordinal - 7)⟩]
      else if value = "month".toList then
        [⟨suffixed day "__month", .number today.month⟩, ⟨suffixed day "__year", .number today.year⟩]
      else if value = "year".toList then [⟨suffixed day "__year", .number today.year⟩]
      else []
  | .text => [⟨suffixed name "__icontains", .text value⟩]
  | .other => [⟨name, .text value⟩]

/-- `qs.filter(**lookups)`. -/
def narrow (ds : Dataset Row) (lookups : List Lookup) (qs : List Row) : List Row :=
  qs.filter fun row => lookups.all fun l => ds.holds l row

/-- `_apply_list_filters`. -/
def applyListFilters (env : Env) (ds : Dataset Row) (request : QueryDict) (qs : List Row) :
    List Row :=
  ds.filterFieldNames.foldl (fun qs name =>
    let value := strip (request.get name)
    if value = [] then qs else narrow ds (fieldLookups env (ds.kind name) name value) qs) qs

/-! ## The shared filter path -/

/-- `key.partition("__")` where the separator is found: what stands before and behind it. -/
def partitionLookup : Str → Option (Str × Str)
  | '_' :: '_' :: rest => some ([], rest)
  | c :: s => (partitionLookup s).map fun (base, lookup) => (c :: base, lookup)
  | [] => none

/-- The date columns that take half-open bounds. -/
def dateColumns (ds : Dataset Row) : List Str :=
  (ds.columns.filter fun (name, type) =>
    (type = "date".toList || type = "datetime".toList) && name ∈ ds.filterFieldNames).map Prod.fst

/-- The date column a key bounds from below or above. -/
def boundedColumn (ds : Dataset Row) (key : Str) : Option Str :=
  match partitionLookup key with
  | none => none
  | some (base, lookup) =>
      if (lookup = "gte".toList ∨ lookup = "lt".toList) ∧ base ∈ dateColumns ds then some base
      else none

/-- `_split_range_filters`. -/
def splitRangeFilters (ds : Dataset Row) (filters : List (Str × Str)) :
    List (Str × Str) × List (Str × Str) :=
  let rangeFilters := filters.filter fun (key, _) => (boundedColumn ds key).isSome
  let flat := filters.filter fun (key, _) => (boundedColumn ds key).isNone
  let rangedColumns := rangeFilters.filterMap fun (key, _) => boundedColumn ds key
  (rangeFilters, flat.filter fun (key, _) => key ∉ rangedColumns)

/-- `_parse_date_bound`. -/
def parseDateBound (env : Env) (raw : Str) : Option ℤ :=
  let text := strip raw
  if text = [] then none else env.fromIso text

/-- The request handed to the list pipeline, when there is one. -/
def filterRequest (ds : Dataset Row) (filters : List (Str × Str)) : Option QueryDict :=
  let flat := (splitRangeFilters ds filters).2
  let pairs := joinPairs (flat.filter fun (_, value) => value ≠ [])
  if pairs = [] then none else some (parseQsl pairs)

/-- The half-open bounds applied directly; one that is no date is ignored. -/
def rangeLookups (env : Env) (ds : Dataset Row) (filters : List (Str × Str)) : List Lookup :=
  (splitRangeFilters ds filters).1.filterMap fun (key, raw) =>
    (parseDateBound env raw).map fun bound => ⟨key, .moment bound⟩

/-- `Dataset._filtered_qs`. -/
def filteredQs (env : Env) (ds : Dataset Row) (filters : List (Str × Str)) : List Row :=
  if filters = [] then ds.source
  else
    let qs := narrow ds (rangeLookups env ds filters) ds.source
    match filterRequest ds filters with
    | none => qs
    | some request => applyListFilters env ds request qs

/-! ## Buckets -/

/-- What a bucket takes of a column; `other` takes what its siblings leave. -/
inductive Shape
  | band (lo : Str) (hi : Option Str)
  | value (value : Option Str)
  | values (values : List (Option Str))
  | other
  deriving DecidableEq, Repr

structure Bucket where
  key : Str
  label : Str
  shape : Shape
  deriving DecidableEq, Repr

/-- The options of an `auto` dimension. -/
structure Auto where
  limit : Option ℤ := none
  labelField : Option Str := none

structure Dimension where
  field : Str
  auto : Option Auto := none
  buckets : List Bucket := []

def autoBucketLimit : ℤ := 12

/-- `int(opts.get("limit") or AUTO_BUCKET_LIMIT)`. -/
def Auto.effectiveLimit (auto : Auto) : ℤ :=
  match auto.limit with
  | none => autoBucketLimit
  | some n => if n = 0 then autoBucketLimit else n

/-- `_dimension_values`. -/
def dimensionValues (buckets : List Bucket) : List (Option Str) :=
  buckets.flatMap fun b =>
    match b.shape with
    | .value v => [v]
    | .values vs => vs
    | _ => []

/-- `field__in=values`: a NULL among the values is ignored, and a NULL cell is in no list. -/
def isIn (values : List (Option Str)) (cell : Option Str) : Bool :=
  cell.isSome && cell ∈ values

/-- `_bucket_cond`, on the cell of the dimension's field; a negated `__in` lets a NULL cell
through, and `field=None` is `IS NULL`. -/
def bucketCond (env : Env) (b : Bucket) (dimensionValues : List (Option Str))
    (cell : Option Str) : Bool :=
  match b.shape with
  | .other => !isIn dimensionValues cell
  | .value v => cell = v
  | .values vs => isIn vs cell
  | .band lo hi =>
      cell.isSome && env.collate (some lo) cell &&
        match hi with
        | none => true
        | some hi => !env.collate (some hi) cell

/-- The `ORDER BY -_n, field` of the grouping. -/
def rankedBefore (env : Env) (column : List (Option Str)) (a b : Option Str) : Prop :=
  column.count b < column.count a ∨ (column.count a = column.count b ∧ env.collate a b = true)

instance (env : Env) (column : List (Option Str)) : DecidableRel (rankedBefore env column) :=
  fun _ _ => inferInstanceAs (Decidable (_ ∨ _))

/-- The distinct values of a column, the most frequent ones first. -/
def ranked (env : Env) (column : List (Option Str)) : List (Option Str) :=
  column.dedup.insertionSort (rankedBefore env column)

/-- `Max(label_field)` over a group; NULLs do not count. -/
def maxLabel (env : Env) (labels : List (Option Str)) : Option Str :=
  labels.foldl (fun best label =>
    match best, label with
    | best, none => best
    | none, label => label
    | some best, some label => if env.collate (some best) (some label) then some label else some best)
    none

/-- `str(value)` of a cell. -/
def cellText : Option Str → Str
  | none => "None".toList
  | some text => text

/-- The key an automatic bucket has from its value. -/
def valueKey (value : Option Str) : Str := "v:".toList ++ cellText value

def column (ds : Dataset Row) (field : Str) (qs : List Row) : List (Option Str) :=
  qs.map fun row => ds.cell row field

/-- The label of an automatic bucket. -/
def bucketLabel (env : Env) (ds : Dataset Row) (scope : List Row) (dim : Dimension) (auto : Auto)
    (value : Option Str) : Str :=
  let fallback := if value = none ∨ value = some [] then "(blank)".toList else cellText value
  let group := scope.filter fun row => ds.cell row dim.field = value
  match auto.labelField.bind fun field => maxLabel env (column ds field group) with
  | none => fallback
  | some label => if label = [] then fallback else label

/-- `_derive_buckets`. -/
def deriveBuckets (env : Env) (ds : Dataset Row) (scope : List Row) (dim : Dimension)
    (auto : Auto) : Except PyExc (List Bucket) :=
  let limit := auto.effectiveLimit
  if limit + 1 < 0 then .error ⟨.valueError, "Negative indexing is not supported."⟩
  else
    let rows := (ranked env (column ds dim.field scope)).take (limit + 1).toNat
    let overflow := limit < rows.length
    let buckets := (rows.take limit.toNat).map fun value =>
      ⟨valueKey value, bucketLabel env ds scope dim auto value, .value value⟩
    .ok (if overflow then buckets ++ [⟨"other".toList, "Other".toList, .other⟩] else buckets)

/-- `resolve_buckets`: automatic buckets come from the unnarrowed queryset. -/
def resolveBuckets (env : Env) (ds : Dataset Row) (dim : Dimension) :
    Except PyExc (List Bucket) :=
  match dim.auto with
  | some auto => deriveBuckets env ds (filteredQs env ds []) dim auto
  | none => .ok dim.buckets

def bucketByKey (buckets : List Bucket) (key : Str) : Option Bucket :=
  Table.get Bucket.key buckets key

/-! ## The read operations -/

/-- The rows of `qs` in a bucket. -/
def bucketRows (env : Env) (ds : Dataset Row) (field : Str) (buckets : List Bucket) (b : Bucket)
    (qs : List Row) : List Row :=
  qs.filter fun row => bucketCond env b (dimensionValues buckets) (ds.cell row field)

def unknownDimension : PyExc := ⟨.valueError, "unknown dimension field"⟩
def unknownBucket : PyExc := ⟨.valueError, "unknown bucket"⟩
def badAlias : PyExc := ⟨.valueError, "Column aliases cannot contain these characters."⟩

/-- `Dataset._scoped_qs`. -/
def scopedQs (env : Env) (ds : Dataset Row) (filters : List (Str × Str))
    (drilldown : Option (Dimension × Str)) : Except PyExc (List Row) :=
  let qs := filteredQs env ds filters
  match drilldown with
  | none => .ok qs
  | some (dim, bucket) =>
      if dim.field ∉ ds.columnNames then .error unknownDimension
      else do
        let buckets ← resolveBuckets env ds dim
        match bucketByKey buckets bucket with
        | none => .error unknownBucket
        | some b => .ok (bucketRows env ds dim.field buckets b qs)

/-- `Dataset.count`. -/
def count (env : Env) (ds : Dataset Row) (filters : List (Str × Str))
    (drilldown : Option (Dimension × Str)) : Except PyExc ℕ :=
  (scopedQs env ds filters drilldown).map List.length

/-- A bar of a bucketed series. -/
structure Bar where
  key : Str
  label : Str
  value : ℕ
  lo : Option Str
  hi : Option Str
  deriving DecidableEq, Repr

/-- `b.get("lo")` and `b.get("hi")`. -/
def Shape.bounds : Shape → Option Str × Option Str
  | .band lo hi => (some lo, hi)
  | _ => (none, none)

/-- The aggregate under an alias: of two buckets with one key the later one's. -/
def aggregated (env : Env) (ds : Dataset Row) (field : Str) (buckets : List Bucket)
    (qs : List Row) (key : Str) : ℕ :=
  match Table.get Bucket.key buckets.reverse key with
  | none => 0
  | some b => (bucketRows env ds field buckets b qs).length

/-- `Dataset._bucketed_series`. -/
def bucketedSeries (env : Env) (ds : Dataset Row) (dim : Dimension)
    (filters : List (Str × Str)) : Except PyExc (List Bar) :=
  if dim.field ∉ ds.columnNames then .error unknownDimension
  else do
    let buckets ← resolveBuckets env ds dim
    if buckets.all fun b => env.aliasAllowed b.key then
      let qs := filteredQs env ds filters
      .ok (buckets.map fun b =>
        ⟨b.key, b.label, aggregated env ds dim.field buckets qs b.key, b.shape.bounds.1,
          b.shape.bounds.2⟩)
    else .error badAlias

/-! ## The rows and their export -/

/-- What the rows view takes from outside: the cap of the settings, the bucket objects of a JSON
text, and `_apply_ordering_fields`, with what the database makes of it. -/
structure RowsEnv (Row : Type) where
  csvMaxRows : ℤ
  loads : Str → Except PyExc (List Bucket)
  sort : Str → List Row → Except PyExc (List Row)
  sort_perm : ∀ ordering qs sorted, sort ordering qs = .ok sorted → sorted.Perm qs

variable (site : RowsEnv Row)

/-- `_ROWS_LIMIT_MAX`. -/
def rowsLimitMax : ℤ := 500

/-- `max(1, min(int(limit or 50), _ROWS_LIMIT_MAX))`. -/
def clampRows (limit : ℤ) : ℤ := max 1 (min (if limit = 0 then 50 else limit) rowsLimitMax)

/-- The rows in the order that is asked for. -/
def ordered (ordering : Str) (qs : List Row) : Except PyExc (List Row) :=
  if ordering = [] then .ok qs else site.sort ordering qs

/-- `Dataset.rows`. -/
def rows (env : Env) (ds : Dataset Row) (filters : List (Str × Str)) (ordering : Str)
    (limit : Option ℤ) (offset : ℤ) (drilldown : Option (Dimension × Str)) :
    Except PyExc (List Row) := do
  let qs ← scopedQs env ds filters drilldown
  let qs ← ordered site ordering qs
  let page := qs.drop (max 0 offset).toNat
  match limit with
  | none => return page
  | some limit => return page.take (clampRows limit).toNat

/-- `_int_param`. -/
def intParam {α : Type} (u : Unicode) (q : QueryDict) (name : String) (read : ℤ → α) (default : α) :
    α :=
  let raw := q.get name.toList
  if raw = [] then default
  else match pyInt u raw with
    | .ok n => read n
    | .error _ => default

/-- `_parse_dimension`, on the field that `dimension` names. -/
def parseDimension (u : Unicode) (q : QueryDict) (field : Str) : Except PyExc (Option Dimension) :=
  let rawBuckets := q.get "buckets".toList
  let auto := u.lower (strip (q.get "auto".toList)) ∈ ["true".toList, "1".toList, "yes".toList]
  if field = [] ∨ (rawBuckets = [] ∧ ¬auto) then .ok none
  else if rawBuckets ≠ [] then
    (site.loads rawBuckets).map fun buckets => some { field := field, buckets := buckets }
  else
    let labelField := q.get "label_field".toList
    .ok (some
      { field := field
        auto := some
          { limit := intParam u q "auto_limit" some none
            labelField := if labelField = [] then none else some labelField } })

/-- `_RESERVED`. -/
def reserved : List Str :=
  ["ordering", "limit", "offset", "format", "dimension", "measure", "agg", "expand", "buckets",
    "auto", "auto_limit", "label_field", "bucket"].map String.toList

/-- The parameters that are no option of the view. -/
def requestFilters (q : QueryDict) : List (Str × Str) := q.items.filter fun (name, _) => name ∉ reserved

inductive RowsResponse (Row : Type)
  | csv (rows : List Row)
  | json (rows : List Row) (total : ℕ) (offset : ℤ)
  /-- A 400. -/
  | refused (error : String)
  /-- An exception that the view does not catch. -/
  | fault (e : PyExc)

/-- The message of an export over the cap. -/
def overCap (csvCap : ℤ) : String :=
  s!"Export exceeds {csvCap} rows (SMALLSTACK_DATASET_CSV_MAX_ROWS). Narrow the filters, or page " ++
    "with limit/offset."

/-- The bucket that a request narrows to. -/
def requestDrilldown (u : Unicode) (q : QueryDict) : Except PyExc (Option (Dimension × Str)) := do
  let dimension ← parseDimension site u q (strip (q.get "dimension".toList))
  let bucket := q.get "bucket".toList
  return if bucket = [] then none else dimension.map fun dim => (dim, bucket)

/-- The limit a request is read with. -/
def requestLimit (u : Unicode) (q : QueryDict) (isCsv : Bool) : ℤ :=
  if isCsv then
    match intParam u q "limit" some none with
    | none => site.csvMaxRows + 1
    | some requested => if site.csvMaxRows < requested then site.csvMaxRows + 1 else requested
  else intParam u q "limit" id 50

/-- `DatasetRowsView.get`. -/
def datasetRows (env : Env) (ds : Dataset Row) (q : QueryDict) : RowsResponse Row :=
  let filters := requestFilters q
  let isCsv := q.get "format".toList = "csv".toList
  let limit := requestLimit site env.unicode q isCsv
  let offset := intParam env.unicode q "offset" id 0
  let read : Except PyExc (List Row × Option (Dimension × Str)) := do
    let drilldown ← requestDrilldown site env.unicode q
    let rows ← rows site env ds filters (q.get "ordering".toList) (some limit) offset drilldown
    return (rows, drilldown)
  match read with
  | .error e => if e.cls = .valueError then .refused e.msg else .fault e
  | .ok (rows, drilldown) =>
      if isCsv then
        if site.csvMaxRows < rows.length then .refused (overCap site.csvMaxRows) else .csv rows
      else
        match count env ds filters drilldown with
        | .error e => .fault e
        | .ok total => .json rows total (max 0 offset)

end CwStation.Datasets
