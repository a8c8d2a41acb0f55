import CwStation.Library.Dict
import CwStation.Model.Python

/-! # Payloads as form data: `form_bridge.py`

The REST API and the MCP tools give a payload to a model form. A partial update fills it up with
what the row has, and the form cleans all of it. -/

namespace CwStation.Forms

variable {α : Type}

/-! ## Values -/

/-- A value of Python; numbers, dates and the like are `other`. -/
inductive Value (α : Type)
  | none
  | bool (b : Bool)
  | str (s : Str)
  | list (items : List (Value α))
  | dict (items : List (Str × Value α))
  /-- A primary key. -/
  | key (pk : ℕ)
  /-- A model instance. -/
  | row (pk : ℕ)
  | other (x : α)

/-- `value in Field.empty_values`. -/
def Value.isEmpty : Value α → Bool
  | .none => true
  | .str s => s.isEmpty
  | .list items => items.isEmpty
  | .dict items => items.isEmpty
  | _ => false

/-- `v.pk if hasattr(v, "pk") else v`. -/
def Value.pk : Value α → Value α
  | .row pk => .key pk
  | v => v

/-! ## Forms -/

inductive Kind
  /-- `CharField`. -/
  | char (strip : Bool)
  /-- `JSONField`. -/
  | json
  /-- `BooleanField`, a checkbox. -/
  | checkbox
  | file
  /-- Fields that take what their model fields hold: numbers, dates, choices, relations. -/
  | native (multiple : Bool)
  deriving DecidableEq

structure FormField (α : Type) where
  name : Str
  kind : Kind
  required : Bool
  disabled : Bool
  /-- What an empty input is cleaned to. -/
  emptyValue : Value α
  /-- `get_default()` of the model field, if it has one. -/
  default : Option (Value α)

/-- The `base_fields` of a form class. -/
structure FormClass (α : Type) where
  fields : List (FormField α)
  unique : Table.Unique FormField.name fields

/-- `base_fields.get(key)`. -/
def FormClass.get (form : FormClass α) (key : Str) : Option (FormField α) :=
  Table.get FormField.name form.fields key

/-- The editable fields of a model instance with their values. -/
abbrev Row (α : Type) := Dict Str (Value α)

/-- `json`, and what Django does with a field. -/
structure FormLib (α : Type) where
  /-- `json.dumps`. -/
  dumps : Value α → Str
  /-- `json.loads`; `none` is a `JSONDecodeError`. -/
  loads : Str → Option (Value α)
  /-- `field.clean` of what its widget finds in the data, beside the initial value. -/
  clean : FormField α → Value α → Option (Value α) → Except Str (Value α)
  /-- What the model field's own checks accept. -/
  valid : FormField α → Value α → Prop
  /-- The errors of `full_clean` of the instance, without those of some fields. -/
  fullClean : Row α → List Str → List (Str × Str)

variable (lib : FormLib α)

/-! ## The bridge -/

/-- `_native`. -/
def native (field : Option (FormField α)) (value : Value α) : Value α :=
  if field.map FormField.kind = some .json then
    match value with
    | .none => .none
    | .str s => .str s
    | v => .str (lib.dumps v)
  else match value with
    | .list items => .list (items.map Value.pk)
    | v => v

/-- `model_to_dict`. -/
def modelToDict (row : Row α) (fields : Option (List Str)) : List (Str × Value α) :=
  match fields with
  | some fields => row.items.filter fun x => x.1 ∈ fields
  | none => row.items

inductive Incoming (α : Type)
  | mapping (items : Dict Str (Value α))
  /-- Each key of a `QueryDict` with its first value and the rest. -/
  | query (items : List (Str × Str × List Str))

/-- The names that a payload has. -/
def Incoming.names : Incoming α → List Str
  | .mapping items => items.keys
  | .query items => items.map Prod.fst

/-- What a payload puts into the data. -/
def Incoming.entries (form : FormClass α) : Incoming α → List (Str × Value α)
  | .mapping items => items.items.map fun x => (x.1, native lib (form.get x.1) x.2)
  | .query items => items.map fun x =>
      (x.1, if x.2.2 = [] then .str x.2.1 else .list ((x.2.1 :: x.2.2).map Value.str))

/-- One round of the loop over the defaults. -/
def fillDefault (data : Dict Str (Value α)) (f : FormField α) : Dict Str (Value α) :=
  if f.name ∈ data.keys then data
  else match f.default with
    | some .none => data
    | some value => data.set f.name (native lib (some f) value)
    | none => data

/-- `merge_form_payload`. -/
def mergeFormPayload (form : FormClass α) (incoming : Incoming α) (obj : Option (Row α))
    (instanceFields : Option (List Str)) (fillDefaults : Bool) : Dict Str (Value α) :=
  let seeded := match obj with
    | some row => Dict.empty.update
        ((modelToDict row instanceFields).map fun x => (x.1, native lib (form.get x.1) x.2))
    | none => Dict.empty
  let filled := if fillDefaults then form.fields.foldl (fillDefault lib) seeded else seeded
  filled.update (incoming.entries lib form)

/-! ## The model form -/

/-- The initial value of a field, as the instance has it. -/
def initial (row : Row α) (f : FormField α) : Value α := (row.get f.name).getD .none

/-- The loop body of `_clean_fields`: a disabled field keeps its initial value. -/
def cleanField (row : Row α) (data : Dict Str (Value α)) (f : FormField α) : Except Str (Value α) :=
  lib.clean f (initial row f) (if f.disabled then some (initial row f) else data.get f.name)

/-- The errors of `_clean_fields`. -/
def fieldErrors (form : FormClass α) (row : Row α) (data : Dict Str (Value α)) : List (Str × Str) :=
  form.fields.filterMap fun f => match cleanField lib row data f with
    | .ok _ => none
    | .error e => some (f.name, e)

/-- Widgets that cannot tell an input that is missing from one that is empty. -/
def Kind.untold : Kind → Bool
  | .checkbox => true
  | .native multiple => multiple
  | _ => false

/-- `value_omitted_from_data`. -/
def omitted (data : Dict Str (Value α)) (f : FormField α) : Bool :=
  f.name ∉ data.keys ∧ f.kind.untold = false

/-- What `construct_instance` sets: the fields of the model that are clean, but no empty value
where an input is missing and the model has a default. -/
def written (row : Row α) (data : Dict Str (Value α)) (f : FormField α) : Option (Value α) :=
  match cleanField lib row data f with
  | .ok value =>
      if f.name ∈ row.keys ∧ ¬(f.default.isSome ∧ omitted data f ∧ value.isEmpty) then some value
      else none
  | .error _ => none

/-- `construct_instance`. -/
def constructInstance (form : FormClass α) (row : Row α) (data : Dict Str (Value α)) : Row α :=
  row.update (form.fields.filterMap fun f => (written lib row data f).map fun v => (f.name, v))

/-- The errors of a form that is not valid. -/
structure Refusal where
  fields : List (Str × Str)
  model : List (Str × Str)
  deriving DecidableEq

/-- `form_class(data, instance=obj)`, `form.is_valid()` and `form.save()`. -/
def submit (form : FormClass α) (row : Row α) (data : Dict Str (Value α)) :
    Except Refusal (Row α) :=
  let errors := fieldErrors lib form row data
  let row' := constructInstance lib form row data
  let refused := lib.fullClean row' (errors.map Prod.fst)
  if errors = [] ∧ refused = [] then .ok row' else .error ⟨errors, refused⟩

/-! ## The surfaces -/

/-- What the surfaces read of a `CRUDView`. -/
structure View (α : Type) where
  form : FormClass α
  fields : List Str
  /-- `_get_detail_fields()`. -/
  detailFields : List Str

/-- `crud_config.fields or crud_config._get_detail_fields()`. -/
def View.instanceFields (view : View α) : List Str :=
  if view.fields = [] then view.detailFields else view.fields

inductive Method
  | put
  | patch
  deriving DecidableEq

/-- `_api_update`, of a request body that is a JSON object. -/
def apiUpdate (view : View α) (method : Method) (row : Row α) (raw : Dict Str (Value α)) :
    Except Refusal (Row α) :=
  let data := match method with
    | .patch => mergeFormPayload lib view.form (.mapping raw) (some row) (some view.instanceFields) false
    | .put => mergeFormPayload lib view.form (.mapping raw) none none false
  submit lib view.form row data

/-- The handler of `_build_update_tool`, once the object is fetched and may be updated. -/
def updateTool (view : View α) (row : Row α) (args : Dict Str (Value α)) : Except Refusal (Row α) :=
  let incoming := Dict.empty.update (args.items.filter fun x => x.1 ∉ ["pk".toList, "id".toList])
  submit lib view.form row
    (mergeFormPayload lib view.form (.mapping incoming) (some row) (some view.instanceFields) false)

end CwStation.Forms
