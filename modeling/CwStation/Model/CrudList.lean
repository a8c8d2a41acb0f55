import CwStation.Library.Pages
import CwStation.Model.Floats
import CwStation.Model.Urlencoded
import Mathlib.Data.Char
import Mathlib.Data.List.Lex

/-! # The REST list endpoint: `apps/smallstack/api.py`

`_api_list` of a CRUD model: search, filter, export, order, aggregate, paginate. Each page runs
a query of its own, and rows that the ordering does not tell apart come in whatever order the
database likes. -/

namespace CwStation.Crud

open Pages
open Urlencoded

/-! ## Querysets -/

/-- What a queryset selects and how it is ordered; `WeakOrder.flat` where it is not. A row stands
in it once for each row of the joins that select it. -/
structure QuerySet (ρ : Type) where
  rows : List ρ
  order : WeakOrder ρ
  /-- Row counts are 64-bit integers. -/
  few : rows.length < 2 ^ 63

/-- The database as one query finds it: any arrangement that the order allows. -/
structure Database (ρ : Type) where
  run : QuerySet ρ → List ρ
  arranged : ∀ qs, Arranged qs.order qs.rows (run qs)

/-! ## The view class -/

def pageParam : Str := "page".toList

/-- A `CRUDView`, with what it makes of a request. None of it looks at `page`. -/
structure CrudConfig (ρ : Type) where
  /-- `request.path` of the list endpoint. -/
  path : Str
  /-- `_get_list_fields()`. -/
  listFields : List Str
  apiExtraFields : List Str
  /-- What `_field_is_orderable` says of a name, and how the database sorts by it. -/
  column : Str → Option (WeakOrder ρ)
  /-- `_resolve_paginate_by()`. -/
  paginateBy : Option ℕ
  exportFormats : List Str
  /-- `get_list_queryset(_get_queryset(), request)`, with `Meta.ordering` if there is one. -/
  listQueryset : QueryDict → QuerySet ρ
  searchFields : List Str
  /-- The rows in which one of the search fields holds a text. -/
  icontains : Str → QuerySet ρ → QuerySet ρ
  filterFields : List Str
  hasFilterClass : Bool
  /-- The `apply_filter` hook; `none` is `NotImplemented`. -/
  applyFilter : QuerySet ρ → Str → Str → QueryDict → Option (QuerySet ρ)
  /-- The `FilterSet`, and the errors of each field. -/
  filterset : QueryDict → QuerySet ρ → Except (List (Str × List Str)) (QuerySet ρ)
  /-- The error of `_compute_aggregations`. -/
  aggregationError : QueryDict → QuerySet ρ → Option Str
  path_plain : '?' ∉ path
  listQueryset_page : ∀ q v, listQueryset (q.set pageParam v) = listQueryset q
  filterFields_page : pageParam ∉ filterFields
  applyFilter_page : ∀ qs name value q v,
    applyFilter qs name value (q.set pageParam v) = applyFilter qs name value q
  filterset_page : ∀ q v qs, filterset (q.set pageParam v) qs = filterset q qs
  aggregationError_page : ∀ q v qs,
    aggregationError (q.set pageParam v) qs = aggregationError q qs

variable {ρ : Type} (cfg : CrudConfig ρ)

structure ApiError where
  message : Str
  status : ℕ
  deriving DecidableEq, Repr

/-- `django.core.exceptions.FieldError`: "Cannot resolve keyword into field". -/
structure FieldError where
  keyword : Str
  deriving DecidableEq, Repr

structure PageMeta where
  count : ℕ
  page : ℕ
  totalPages : ℕ
  next : Option Str
  previous : Option Str
  deriving DecidableEq, Repr

inductive Response (ρ : Type)
  | page (items : List ρ) (info : PageMeta)
  | export (qs : QuerySet ρ) (format : Str)
  | error (e : ApiError)
  /-- An exception that nothing catches. -/
  | fault (e : FieldError)

/-! ## Search and filters -/

/-- `_apply_list_search`. -/
def applyListSearch (q : QueryDict) (qs : QuerySet ρ) : QuerySet ρ :=
  if cfg.searchFields = [] then qs
  else if strip (q.get "q".toList) = [] then qs
  else cfg.icontains (strip (q.get "q".toList)) qs

/-- One filter field: the queryset after its override, and whether the override took it. -/
def overrideField (q : QueryDict) (qs : QuerySet ρ) (name : Str) : QuerySet ρ × Bool :=
  if strip (q.get name) = [] then (qs, false)
  else match cfg.applyFilter qs name (strip (q.get name)) q with
    | some overridden => (overridden, true)
    | none => (qs, false)

/-- The overrides in their order, and the fields they took. -/
def overrideFields (q : QueryDict) : QuerySet ρ → List Str → QuerySet ρ × List Str
  | qs, [] => (qs, [])
  | qs, name :: names =>
      let (qs', taken) := overrideField cfg q qs name
      let (result, consumed) := overrideFields q qs' names
      (result, if taken then name :: consumed else consumed)

/-- `_apply_list_filter`. -/
def applyListFilter (q : QueryDict) (qs : QuerySet ρ) : Except ApiError (QuerySet ρ) :=
  if cfg.filterFields = [] ∧ cfg.hasFilterClass = false then .ok qs
  else
    let (qs', consumed) := overrideFields cfg q qs cfg.filterFields
    match cfg.filterset (q.filter fun entry => entry.1 ∉ consumed) qs' with
    | .ok filtered => .ok filtered
    | .error problems =>
        let texts := problems.map fun (field, errs) =>
          field ++ ": ".toList ++ List.intercalate ", ".toList errs
        .error ⟨"Invalid filter value(s): ".toList ++ List.intercalate "; ".toList texts ++ ".".toList,
          400⟩

/-! ## Ordering -/

/-- `part.strip().lstrip("-")`. -/
def orderField (part : Str) : Str := (strip part).dropWhile (· = '-')

/-- A term of `order_by`: one minus in front of a name turns the order round. -/
def orderTerm (term : Str) : Except FieldError (WeakOrder ρ) :=
  let descending := term.head? = some '-'
  let name := if descending then term.tail else term
  match cfg.column name with
  | some order => .ok (if descending then order.reverse else order)
  | none => .error ⟨name⟩

/-- `qs.order_by(*terms)`. -/
def orderBy (qs : QuerySet ρ) (terms : List Str) : Except FieldError (QuerySet ρ) := do
  let orders ← terms.mapM (orderTerm cfg)
  return { qs with order := orders.foldr .lex (.flat ρ) }

/-- `_apply_ordering_fields`. -/
def applyOrderingFields (qs : QuerySet ρ) (ordering : Str) (allowed : List Str) :
    Except FieldError (QuerySet ρ) :=
  let validated := ((ordering.splitOn ',').filter fun part =>
    orderField part ∈ allowed ∧ (cfg.column (orderField part)).isSome).map strip
  if validated = [] then .ok qs else orderBy cfg qs validated

/-- `sorted` of texts. -/
def sortedTexts (texts : List Str) : List Str :=
  texts.dedup.insertionSort fun a b => a ≤ b

/-- `_apply_list_ordering`, with the message of its error. -/
def applyListOrdering (q : QueryDict) (qs : QuerySet ρ) :
    Except FieldError (Except ApiError (QuerySet ρ)) :=
  let ordering := strip (q.get "ordering".toList)
  if ordering = [] then .ok (.ok qs)
  else
    let allowed := cfg.listFields ++ cfg.apiExtraFields
    let requested := ((ordering.splitOn ',').filter fun part => strip part ≠ []).map orderField
    let invalid := requested.filter (· ∉ allowed)
    if invalid ≠ [] then
      .ok (.error ⟨"Invalid ordering field(s): ".toList ++ List.intercalate ", ".toList invalid ++
        ". Allowed: ".toList ++ List.intercalate ", ".toList (sortedTexts allowed) ++ ".".toList, 400⟩)
    else (applyOrderingFields cfg qs ordering allowed).map .ok

/-! ### Field paths -/

/-- What a field path asks of a field. -/
structure FieldInfo (M : Type) where
  isRelation : Bool
  relatedModel : Option M

/-- The models behind a queryset and its annotations. The names are identifiers. -/
structure Schema (M : Type) where
  model : M
  annotations : List Str
  /-- `model._meta.get_field`. -/
  getField : M → Str → Option (FieldInfo M)
  pk : M → FieldInfo M
  getField_plain : ∀ model name, name.head? = some '-' → getField model name = none
  annotations_plain : ∀ name ∈ annotations, name.head? ≠ some '-'

/-- `path.split("__")`. -/
def splitLookup : Str → List Str
  | '_' :: '_' :: path => [] :: splitLookup path
  | c :: path =>
      match splitLookup path with
      | [] => [[c]]
      | part :: parts => (c :: part) :: parts
  | [] => [[]]

variable {M : Type} (s : Schema M)

def Schema.fieldOf (model : M) (part : Str) : Option (FieldInfo M) :=
  if part = "pk".toList then some (s.pk model) else s.getField model part

/-- The field at the end of a path; a segment that another one follows has to be a relation. -/
def Schema.lastField : M → List Str → Option (FieldInfo M)
  | _, [] => none
  | model, [part] => s.fieldOf model part
  | model, part :: parts =>
      match s.fieldOf model part with
      | none => none
      | some field =>
          match field.relatedModel with
          | none => none
          | some related => lastField related parts

/-- `_field_is_orderable`. -/
def fieldIsOrderable (path : Str) : Bool :=
  path ∈ s.annotations || (s.lastField s.model (splitLookup path)).isSome

/-- What Django makes of a path in `order_by`: a generic foreign key has no columns to sort by. -/
def canOrderBy (path : Str) : Bool :=
  path ∈ s.annotations ||
    (s.lastField s.model (splitLookup path)).any fun field =>
      !(field.isRelation && field.relatedModel.isNone)

/-- A term of `order_by`, less the one minus that `removeprefix` takes. -/
def removeMinus (term : Str) : Str := if term.head? = some '-' then term.tail else term

/-- The terms that `_apply_ordering_fields` hands to `order_by`. -/
def orderTerms (ordering : Str) (allowed : List Str) : List Str :=
  ((ordering.splitOn ',').filter fun part =>
    orderField part ∈ allowed ∧ fieldIsOrderable s (orderField part)).map strip

/-- How a list comes out. -/
inductive Sorting
  | asItIs
  | byKey
  | terms (terms : List Str)
  | refused (e : ApiError)
  deriving DecidableEq, Repr

/-- `_apply_ordering_fields`, on the fields of a model. -/
def applyTerms (ordering : Str) (allowed : List Str) : Except FieldError Sorting :=
  let validated := orderTerms s ordering allowed
  match validated.find? fun term => !canOrderBy s (removeMinus term) with
  | some term => .error ⟨removeMinus term⟩
  | none => .ok (if validated = [] then .asItIs else .terms validated)

/-- The lists that take an `ordering`. -/
inductive Surface
  | rest
  | html
  | dataset
  | mcp
  deriving DecidableEq, Repr

/-- What the lists of a view allow a client to sort by. -/
structure SortedView where
  listFields : List Str
  apiExtraFields : List Str
  /-- `ordering_fields`, empty where there are none. -/
  orderingFields : List Str
  modelFields : List Str
  /-- The columns of a dataset. -/
  columnNames : List Str
  /-- `qs.ordered`. -/
  isOrdered : Bool

def SortedView.allowed (view : SortedView) : Surface → List Str
  | .rest | .mcp => view.listFields ++ view.apiExtraFields
  | .dataset => view.columnNames
  | .html =>
      if view.orderingFields = [] then view.listFields.filter (· ∈ view.modelFields)
      else view.orderingFields

/-- The names that `_apply_list_ordering` refuses. -/
def invalidNames (ordering : Str) (allowed : List Str) : List Str :=
  (((ordering.splitOn ',').filter fun part => strip part ≠ []).map orderField).filter (· ∉ allowed)

/-- The sorting of a list by an `ordering` parameter: `_apply_list_ordering`, `_apply_ordering`, the
datasets' `rows` and the `list` tools. -/
def sortList (view : SortedView) (surface : Surface) (ordering : Str) : Except FieldError Sorting :=
  let allowed := view.allowed surface
  match surface with
  | .rest =>
      if strip ordering = [] then .ok .asItIs
      else if invalidNames (strip ordering) allowed ≠ [] then
        .ok (.refused ⟨"Invalid ordering field(s): ".toList ++
          List.intercalate ", ".toList (invalidNames (strip ordering) allowed) ++ ". Allowed: ".toList ++
          List.intercalate ", ".toList (sortedTexts allowed) ++ ".".toList, 400⟩)
      else applyTerms s (strip ordering) allowed
  | .html =>
      if strip ordering = [] then .ok (if view.isOrdered then .asItIs else .byKey)
      else applyTerms s (strip ordering) allowed
  | .dataset => if ordering = [] then .ok .asItIs else applyTerms s ordering allowed
  | .mcp => if strip ordering = [] then .ok .asItIs else applyTerms s (strip ordering) allowed

/-! ## Pagination -/

/-- The named values of `?page=`. -/
inductive PageAlias
  | first
  | last
  | next
  | prev
  deriving DecidableEq, Repr

def pageAliases : List (Str × PageAlias) :=
  [("first".toList, .first), ("last".toList, .last), ("next".toList, .next),
    ("prev".toList, .prev), ("previous".toList, .prev)]

/-- `_resolve_page`. -/
def resolvePage (u : Unicode) (raw : Str) (totalPages : ℕ) (current : Option ℕ) : ℕ :=
  match pageAliases.lookup (u.lower (strip raw)) with
  | some .first => 1
  | some .last => totalPages
  | some .next => min (current.getD 1 + 1) totalPages
  | some .prev => max (current.getD 1 - 1) 1
  | none => match pyInt u raw with
      | .ok page => (max 1 (min page totalPages)).toNat
      | .error _ => 1

def maxPageSize : ℕ := 1000

def defaultPageSize : ℕ := 25

/-- The page size of a request; what `int()` cannot read leaves the default. -/
def pageSizeOf (u : Unicode) (q : QueryDict) (default : ℕ) : ℕ :=
  let raw := strip (q.get "page_size".toList)
  if raw = [] then default
  else match pyInt u raw with
    | .ok size => (max 1 (min size maxPageSize)).toNat
    | .error _ => default

/-- `max(1, math.ceil(total / page_size))`, with the division of floats. -/
def totalPages (total size : ℕ) : ℕ := max 1 ⌈nearestFloat (total / size)⌉₊

/-- `request.GET.get("page", "1")`. -/
def rawPage (q : QueryDict) : Str := if pageParam ∈ q.map Prod.fst then q.get pageParam else ['1']

/-- `_page_url`. -/
def pageUrl (q : QueryDict) (page : ℕ) : Str :=
  cfg.path ++ '?' :: urlencode (q.set pageParam (Nat.toDigits 10 page)).items

/-- `_paginate`. -/
def paginate (u : Unicode) (db : Database ρ) (q : QueryDict) (qs : QuerySet ρ) (default : ℕ) :
    List ρ × PageMeta :=
  let size := pageSizeOf u q default
  let total := qs.rows.length
  let pages := totalPages total size
  let page := resolvePage u (rawPage q) pages none
  let start := (page - 1) * size
  (((db.run qs).drop start).take size,
    { count := total
      page := page
      totalPages := pages
      next := if page < pages then some (pageUrl cfg q (page + 1)) else none
      previous := if 1 < page then some (pageUrl cfg q (page - 1)) else none })

/-! ## The endpoint -/

/-- `_api_list` up to the pagination: the queryset, or what is returned in its place. -/
def listed (q : QueryDict) : Except (Response ρ) (QuerySet ρ) := do
  let searched := applyListSearch cfg q (cfg.listQueryset q)
  let qs ← (applyListFilter cfg q searched).mapError .error
  let format := q.get "format".toList
  if format ≠ [] ∧ format ∈ cfg.exportFormats then throw (.export qs format)
  let ordered ← (applyListOrdering cfg q qs).mapError .fault
  let qs ← ordered.mapError .error
  match cfg.aggregationError q qs with
  | some message => throw (.error ⟨message, 400⟩)
  | none => return qs

/-- `_resolve_paginate_by() or _DEFAULT_PAGE_SIZE`. -/
def defaultSize : ℕ :=
  match cfg.paginateBy with
  | some (size + 1) => size + 1
  | _ => defaultPageSize

/-- `_api_list`. -/
def apiList (u : Unicode) (db : Database ρ) (q : QueryDict) : Response ρ :=
  match listed cfg q with
  | .error response => response
  | .ok qs =>
      let (items, info) := paginate cfg u db q qs (defaultSize cfg)
      .page items info

/-! ## A client -/

/-- The parameters of a URL. -/
def queryOf (url : Str) : QueryDict := parseQsl ((url.dropWhile (· ≠ '?')).drop 1)

/-- The rows a client collects that goes on with `next` until there is none. Request `k` is
answered by the query `dbs k`. -/
inductive Walk (u : Unicode) (dbs : ℕ → Database ρ) : ℕ → QueryDict → List ρ → Prop
  | last {k q items info} : apiList cfg u (dbs k) q = .page items info → info.next = none →
      Walk u dbs k q items
  | next {k q items info url rest} : apiList cfg u (dbs k) q = .page items info →
      info.next = some url → Walk u dbs (k + 1) (queryOf url) rest → Walk u dbs k q (items ++ rest)

end CwStation.Crud
