import CwStation.Library.Dict
import CwStation.Model.Python

/-! # Bulk deletes: `apps/smallstack/api.py` and `crud.py`

The objects are loaded once, and then deleted one by one. -/

namespace CwStation.BulkDelete

variable {κ : Type} [DecidableEq κ]

/-- A loaded object. Its `pk` is `None` once it is deleted. -/
structure Instance (κ : Type) where
  row : κ
  pk : Option κ
  deriving DecidableEq

/-- What `obj.delete()` comes to. -/
inductive Outcome (κ : Type)
  /-- The row is removed, and with it what cascades. -/
  | removed (cascade : List κ)
  /-- The row is not there any more. -/
  | gone
  /-- `ProtectedError` or `RestrictedError`, with the types of the objects that are in the way. -/
  | linked (types : List Str)
  /-- `IntegrityError`. -/
  | integrity
  | unexpected
  deriving DecidableEq

/-- `obj.delete()` returns. -/
def Outcome.returns : Outcome κ → Bool
  | .removed _ => true
  | .gone => true
  | _ => false

/-- The rows that go with a row. -/
def Outcome.cascade : Outcome κ → List κ
  | .removed cascade => cascade
  | _ => []

/-- The rows that the delete of a row takes from the table. -/
def Outcome.rows (pk : κ) : Outcome κ → List κ
  | .removed cascade => pk :: cascade
  | _ => []

/-- A `LogEntry` with the flag `DELETION`. -/
structure LogEntry where
  userId : ℕ
  objectId : Str
  changeMessage : Str
  deriving DecidableEq

/-- What the two bulk deletes read of a `CRUDView`. -/
structure View (κ : Type) where
  /-- Whether `get_detail_queryset` has the row. -/
  visible : κ → Bool
  canDelete : Instance κ → Bool
  /-- `check_object_permission` raises neither `PermissionDenied` nor `Http404`. -/
  permits : Instance κ → Bool
  /-- `str(pk)`: the keys are integers, UUIDs or strings, which their texts tell apart. -/
  str : κ → Str
  str_injective : Function.Injective str

/-- The variables of the loop, and what it does to the tables. -/
structure Progress (κ : Type) where
  deletedIds : List κ
  errors : Dict Str Str
  entries : List LogEntry
  /-- The rows that the call has removed. -/
  removed : List κ

variable (view : View κ)

/-- `str(obj.pk)`. -/
def Instance.strPk (obj : Instance κ) : Str := (obj.pk.map view.str).getD "None".toList

/-- The text for a delete that does not return. -/
def Outcome.error : Outcome κ → Str
  | .linked types =>
      "Cannot delete — ".toList ++ (toString types.length).toList ++ [' '] ++
        types.headD "other records".toList ++ " record".toList ++
        (if types.length ≠ 1 then ['s'] else []) ++ " still linked.".toList
  | .integrity => "Cannot delete — a database constraint prevented this action.".toList
  | _ => "Delete failed — an unexpected error occurred.".toList

/-- `errors[str(pk)] = text`. -/
def Progress.fail (s : Progress κ) (pk : κ) (text : Str) : Progress κ :=
  { s with errors := s.errors.set (view.str pk) text }

/-- The object of a row, which an earlier round of the loop may have deleted. -/
def Progress.object (s : Progress κ) (pk : κ) : Instance κ :=
  { row := pk, pk := if pk ∈ s.deletedIds then none else some pk }

/-- `obj.delete()`; an object without a `pk` raises a `ValueError`. -/
def Progress.delete (s : Progress κ) (pk : κ) (outcome : Outcome κ) : Progress κ :=
  match (s.object pk).pk, outcome with
  | none, _ => s.fail view pk (Outcome.unexpected : Outcome κ).error
  | some _, .removed cascade =>
      { s with deletedIds := s.deletedIds ++ [pk], removed := s.removed ++ pk :: cascade }
  | some _, .gone => { s with deletedIds := s.deletedIds ++ [pk] }
  | some _, outcome => s.fail view pk outcome.error

/-- One round of the loop; `logs` are the entries that are written before the delete. -/
def step (logs : Instance κ → List LogEntry) (s : Progress κ) (x : κ × Outcome κ) : Progress κ :=
  if view.visible x.1 then
    if view.canDelete (s.object x.1) ∧ view.permits (s.object x.1) then
      Progress.delete view { s with entries := s.entries ++ logs (s.object x.1) } x.1 x.2
    else s.fail view x.1 "Permission denied".toList
  else s.fail view x.1 "Not found".toList

/-- The loop over the ids, each with what its delete comes to. -/
def run (logs : Instance κ → List LogEntry) (ids : List (κ × Outcome κ)) : Progress κ :=
  ids.foldl (step view logs) ⟨[], .empty, [], []⟩

/-- `log_write`, for a user with a `pk`. -/
def logWrite (user : ℕ) (source : Str) (obj : Instance κ) : List LogEntry :=
  [{ userId := user, objectId := obj.strPk view, changeMessage := "via ".toList ++ source }]

/-- The loop of `api_bulk_delete`. -/
def apiBulkDelete (user : ℕ) (ids : List (κ × Outcome κ)) : Progress κ :=
  run view (logWrite view user "REST API (bulk)".toList) ids

/-- `_bulk_delete` of the HTML pages: `_audit_bulk_action` comes after the loop. -/
def bulkDelete (user : ℕ) (ids : List (κ × Outcome κ)) : Progress κ :=
  let done := run view (fun _ => []) ids
  { done with entries := done.deletedIds.map fun pk =>
      { userId := user, objectId := view.str pk
        changeMessage := "Bulk delete via CRUDView".toList } }

end CwStation.BulkDelete
