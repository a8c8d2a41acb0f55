import CwStation.Library.Dict
import CwStation.Model.Python

/-! # The headers of an inbound request: `CaseInsensitiveDict` of `hooks.py`

Its methods, and those that it takes over from `dict`. -/

namespace CwStation.Webhooks

inductive DictError
  | keyError (key : Str)
  | typeError (msg : String)
  deriving DecidableEq

/-- What `super()` gives is the dictionary of the structure. -/
structure CaseInsensitiveDict (α : Type) extends Dict Str α

namespace CaseInsensitiveDict

variable {α : Type} (u : Unicode)

/-- `super().__getitem__`. -/
def superItem (d : CaseInsensitiveDict α) (key : Str) : Except DictError α :=
  match d.toDict.get key with
  | none => .error (.keyError key)
  | some value => .ok value

/-- `_fold`. -/
def fold (d : CaseInsensitiveDict α) : Dict Str Str :=
  Dict.empty.update (d.toDict.keys.map fun k => (u.lower k, k))

/-- `_actual_key`. -/
def actualKey (d : CaseInsensitiveDict α) (key : Str) : Option Str :=
  if key ∈ d.toDict.keys then some key else (d.fold u).get (u.lower key)

/-- `__getitem__`. -/
def getItem (d : CaseInsensitiveDict α) (key : Str) : Except DictError α :=
  match d.actualKey u key with
  | none => .error (.keyError key)
  | some actual => d.superItem actual

/-- `__contains__`. -/
def contains (d : CaseInsensitiveDict α) (key : Str) : Bool := (d.actualKey u key).isSome

/-- `__delitem__`. -/
def delItem (d : CaseInsensitiveDict α) (key : Str) : Except DictError (CaseInsensitiveDict α) :=
  match d.actualKey u key with
  | none => .error (.keyError key)
  | some actual => do
      let _ ← d.superItem actual
      return ⟨d.toDict.erase actual⟩

/-- `get`. -/
def get (d : CaseInsensitiveDict α) (key : Str) (default : α) : Except DictError α :=
  match d.actualKey u key with
  | none => .ok default
  | some actual => d.superItem actual

/-- `pop`. -/
def pop (d : CaseInsensitiveDict α) (key : Str) (default : List α) :
    Except DictError (α × CaseInsensitiveDict α) :=
  match d.actualKey u key with
  | none =>
      match default with
      | value :: _ => .ok (value, d)
      | [] => .error (.keyError key)
  | some actual => do
      let value ← d.superItem actual
      return (value, ⟨d.toDict.erase actual⟩)

/-- `dict.popitem`. -/
def popItem (d : CaseInsensitiveDict α) : Except DictError ((Str × α) × CaseInsensitiveDict α) :=
  match d.toDict.popItem with
  | none => .error (.keyError "popitem(): dictionary is empty".toList)
  | some (item, rest) => .ok (item, ⟨rest⟩)

/-- `setdefault`. -/
def setdefault (d : CaseInsensitiveDict α) (key : Str) (default : α) :
    Except DictError (α × CaseInsensitiveDict α) :=
  match d.actualKey u key with
  | none => .ok (default, ⟨d.toDict.set key default⟩)
  | some actual => do
      let value ← d.superItem actual
      return (value, d)

/-- `__setitem__`. -/
def setItem (d : CaseInsensitiveDict α) (key : Str) (value : α) : CaseInsensitiveDict α :=
  ⟨d.toDict.set ((d.actualKey u key).getD key) value⟩

/-- The loops of `update`. -/
def setItems (d : CaseInsensitiveDict α) (items : List (Str × α)) : CaseInsensitiveDict α :=
  items.foldl (fun d x => d.setItem u x.1 x.2) d

/-- `update`: a mapping is given by its items. -/
def update (d : CaseInsensitiveDict α) (args : List (List (Str × α))) (kwargs : List (Str × α)) :
    Except DictError (CaseInsensitiveDict α) :=
  match args with
  | [] => .ok (d.setItems u kwargs)
  | [other] => .ok ((d.setItems u other).setItems u kwargs)
  | _ => .error (.typeError s!"update expected at most 1 argument, got {args.length}")

/-- `__init__`. -/
def init (args : List (List (Str × α))) (kwargs : List (Str × α)) :
    Except DictError (CaseInsensitiveDict α) :=
  update u ⟨Dict.empty⟩ args kwargs

/-- `dict.__ior__` writes to the storage. -/
def ior (d : CaseInsensitiveDict α) (other : List (Str × α)) : CaseInsensitiveDict α :=
  ⟨d.toDict.update other⟩

/-- `copy`. -/
def copy (d : CaseInsensitiveDict α) : Except DictError (CaseInsensitiveDict α) :=
  init u [d.items] []

/-! ## A variable that holds the dictionary -/

inductive Call (α : Type)
  | init (args : List (List (Str × α))) (kwargs : List (Str × α))
  | setItem (key : Str) (value : α)
  | delItem (key : Str)
  | pop (key : Str) (default : List α)
  | popItem
  | setdefault (key : Str) (default : α)
  | update (args : List (List (Str × α))) (kwargs : List (Str × α))
  | ior (other : List (Str × α))
  | copy
  | clear

inductive Answer (α : Type)
  | nothing
  | value (v : α)
  | item (key : Str) (v : α)

/-- What a call returns, and what the variable holds then. -/
def call (d : CaseInsensitiveDict α) : Call α → Except DictError (Answer α × CaseInsensitiveDict α)
  | .init args kwargs => (init u args kwargs).map fun d => (.nothing, d)
  | .setItem key value => .ok (.nothing, d.setItem u key value)
  | .delItem key => (d.delItem u key).map fun d => (.nothing, d)
  | .pop key default => (d.pop u key default).map fun r => (.value r.1, r.2)
  | .popItem => d.popItem.map fun r => (.item r.1.1 r.1.2, r.2)
  | .setdefault key default => (d.setdefault u key default).map fun r => (.value r.1, r.2)
  | .update args kwargs => (d.update u args kwargs).map fun d => (.nothing, d)
  | .ior other => .ok (.nothing, d.ior other)
  | .copy => (d.copy u).map fun d => (.nothing, d)
  | .clear => .ok (.nothing, ⟨Dict.empty⟩)

/-- A call that raises leaves the variable as it is. -/
def afterCall (d : CaseInsensitiveDict α) (c : Call α) : CaseInsensitiveDict α :=
  match d.call u c with
  | .ok r => r.2
  | .error _ => d

/-- What the variable holds after the calls, from `CaseInsensitiveDict()` on. -/
def run (calls : List (Call α)) : CaseInsensitiveDict α := calls.foldl (afterCall u) ⟨Dict.empty⟩

end CaseInsensitiveDict

end CwStation.Webhooks
