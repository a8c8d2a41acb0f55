import CwStation.Model.Python
import Mathlib.Data.List.Sort

/-! # Custom tags: `station_vars` in `api.py`, and `macros.js`

The tags of one operator on the server, and a page that expands them in messages. Texts on the
page have no lone surrogates. -/

namespace CwStation.Macros

/-! ## The tag bank on the server -/

/-- `CWVariable`, of one operator. -/
structure CWVariable where
  pk : ℕ
  name : Str
  value : Str
  order : ℕ
  deriving DecidableEq

/-- The rows, and the next primary key. -/
structure Bank where
  vars : List CWVariable := []
  nextPk : ℕ := 1
  deriving DecidableEq

/-- `api_error`. -/
structure ApiError where
  message : Str
  status : ℕ
  deriving DecidableEq

/-- `RESERVED_VARIABLE_NAMES`, and `RESERVED` on the page. -/
def reserved : List Str := ["mycall".toList, "call".toList, "rst".toList]

/-- `[a-z0-9]`. -/
def isNameChar (c : Char) : Bool := ('a' ≤ c && c ≤ 'z') || ('0' ≤ c && c ≤ '9')

/-- `MACRO_NAME_RE.fullmatch`. -/
def macroName : Str → Bool
  | [] => false
  | c :: cs => isNameChar c && cs.length ≤ 23 && cs.all fun c => isNameChar c || c = '-'

/-- `{name}`. -/
def braced (name : Str) : Str := '\x7b' :: name ++ ['\x7d']

/-- `str(name).strip().lstrip("{").rstrip("}").lower()`. -/
def cleanName (u : Unicode) (name : Str) : Str :=
  u.lower (((strip name).dropWhile (· = '\x7b')).reverse.dropWhile (· = '\x7d')).reverse

/-- The JSON object of a POST: whether `delete` is truthy, and what `str` makes of the name and
the value. -/
structure VarRequest where
  id : Option ℕ := none
  delete : Bool := false
  name : Option Str := none
  value : Option Str := none

/-- A row before it is saved. -/
structure Draft where
  pk : Option ℕ
  name : Str
  value : Str
  order : ℕ

def Draft.setName (u : Unicode) (bank : Bank) (draft : Draft) : Option Str → Except ApiError Draft
  | none => .ok draft
  | some name => do
      let name := cleanName u name
      if macroName name = false then
        throw ⟨"Tag must be 1-24 chars: letters, digits, dashes".toList, 400⟩
      if name ∈ reserved then
        throw ⟨braced name ++ " is filled by the station — pick another name".toList, 400⟩
      if bank.vars.any fun var => var.name = name && some var.pk ≠ draft.pk then
        throw ⟨braced name ++ " already exists".toList, 409⟩
      return { draft with name }

def Draft.setValue (draft : Draft) : Option Str → Except ApiError Draft
  | none => .ok draft
  | some value => do
      let value := strip value
      if value = [] ∨ 200 < value.length then
        throw ⟨"Value must be 1-200 characters".toList, 400⟩
      return { draft with value }

/-- `var.save()`. -/
def Bank.save (bank : Bank) (draft : Draft) : Bank :=
  match draft.pk with
  | some pk =>
      { bank with vars := bank.vars.map fun var =>
          if var.pk = pk then ⟨pk, draft.name, draft.value, draft.order⟩ else var }
  | none =>
      { vars := bank.vars ++ [⟨bank.nextPk, draft.name, draft.value, draft.order⟩]
        nextPk := bank.nextPk + 1 }

/-- What `station_vars` does from the name on. -/
def Bank.edit (u : Unicode) (bank : Bank) (draft : Draft) (request : VarRequest) :
    Except ApiError Bank := do
  let draft ← draft.setName u bank request.name
  let draft ← draft.setValue request.value
  if draft.name = [] ∨ draft.value = [] then
    throw ⟨"Both a tag name and a value are required".toList, 400⟩
  return bank.save draft

/-- A POST to `station_vars`. -/
def Bank.post (u : Unicode) (bank : Bank) (request : VarRequest) : Except ApiError Bank :=
  match request.id with
  | some id =>
      match bank.vars.find? fun var => var.pk = id with
      | none => .error ⟨"No such tag".toList, 404⟩
      | some var =>
          if request.delete then .ok { bank with vars := bank.vars.filter fun var => var.pk ≠ id }
          else bank.edit u ⟨some var.pk, var.name, var.value, var.order⟩ request
  | none => bank.edit u ⟨none, [], [], bank.vars.length⟩ request

/-- The bank behind a POST; a refused one changes nothing. -/
def Bank.next (u : Unicode) (bank : Bank) (request : VarRequest) : Bank :=
  match bank.post u request with
  | .ok bank => bank
  | .error _ => bank

/-- The `ordering` of `CWVariable`. -/
def Before (var var' : CWVariable) : Prop :=
  var.order < var'.order ∨ var.order = var'.order ∧ ¬var'.name < var.name

instance (var var' : CWVariable) : Decidable (Before var var') :=
  inferInstanceAs (Decidable (_ ∨ _))

/-- A GET of `station_vars`. -/
def Bank.list (bank : Bank) : List CWVariable := bank.vars.insertionSort Before

/-! ## Expansion on the page -/

/-- What the station fills in. -/
structure Station where
  mycall : Option Str
  call : Option Str
  rst : Option Str

def Station.get (station : Station) (name : Str) : Option Str :=
  if name = "mycall".toList then station.mycall
  else if name = "call".toList then station.call
  else if name = "rst".toList then station.rst
  else none

/-- The own properties of `context`, and `vars`. -/
structure Page where
  context : Str → Option Str
  vars : List CWVariable := []

/-- How `String` prints a function of the runtime. -/
def nativeCode (name : String) : Str × Str :=
  (name.toList, "function ".toList ++ name.toList ++ "() \x7b [native code] \x7d".toList)

/-- What every object inherits from `Object.prototype`, as `String` prints it. -/
def objectPrototype : List (Str × Str) := [
  ("constructor".toList, "function Object() \x7b [native code] \x7d".toList),
  nativeCode "__defineGetter__", nativeCode "__defineSetter__", nativeCode "hasOwnProperty",
  nativeCode "__lookupGetter__", nativeCode "__lookupSetter__", nativeCode "isPrototypeOf",
  nativeCode "propertyIsEnumerable", nativeCode "toString", nativeCode "valueOf",
  ("__proto__".toList, "[object Object]".toList), nativeCode "toLocaleString"]

/-- `context[key]` where it is truthy, as `String` prints it. -/
def Page.known (page : Page) (key : Str) : Option Str :=
  match page.context key with
  | some value => if value = [] then none else some value
  | none => objectPrototype.lookup key

/-- `[a-z0-9_-]` with the flag `i`. -/
def isKeyChar (c : Char) : Bool := c.isAlphanum || c = '_' || c = '-'

/-- The name of the placeholder that has been opened, if it is one. -/
def placeholder (s : Str) : Option Str :=
  let name := s.takeWhile isKeyChar
  if name ≠ [] ∧ (s.dropWhile isKeyChar).head? = some '\x7d' then some name else none

/-- A character, or a match of the expression of `expand`. -/
inductive Piece
  | plain (c : Char)
  | hole (name : Str)
  deriving DecidableEq

/-- The matches in a text, and what is between them. The counter is the number of characters a
match still covers. -/
def pieces : ℕ → Str → List Piece
  | _, [] => []
  | skip + 1, _ :: cs => pieces skip cs
  | 0, c :: cs =>
      match if c = '\x7b' then placeholder cs else none with
      | some name => .hole name :: pieces (name.length + 1) cs
      | none => .plain c :: pieces 0 cs

/-- The length of a text in UTF-16 units. -/
def units (s : Str) : ℕ := (s.map fun c => if c.toNat < 65536 then 1 else 2).sum

/-- What `expand` returns. -/
structure Expansion where
  value : Str := []
  sel : Option (ℕ × ℕ) := none
  deriving DecidableEq

section

variable (upper : Str → Str) (known : Str → Option Str)

/-- One turn of the loop of `expand`. -/
def Expansion.add (e : Expansion) : Piece → Expansion
  | .plain c => { e with value := e.value ++ [c] }
  | .hole name =>
      match known (name.map Char.toLower) with
      | some value => { e with value := e.value ++ upper value }
      | none =>
          { value := e.value ++ braced name
            sel := e.sel.or (some (units e.value, units e.value + units (braced name))) }

def expandWith (text : Str) : Expansion := (pieces 0 text).foldl (Expansion.add upper known) {}

end

/-- `expand`; `upper` is `toUpperCase`. -/
def Page.expand (upper : Str → Str) (page : Page) (text : Str) : Expansion :=
  expandWith upper page.known text

/-! ## Refreshing -/

/-- `context[name] = value`. -/
def setProperty (context : Str → Option Str) (name value : Str) : Str → Option Str := fun key =>
  if key = name then some value else context key

def applyVars (context : Str → Option Str) (vars : List CWVariable) : Str → Option Str :=
  vars.foldl (fun context var =>
    if var.name ∈ reserved then context else setProperty context var.name var.value) context

/-- `refreshVars()` behind the answer of the server. -/
def Page.refreshVars (page : Page) (answer : List CWVariable) : Page where
  context := applyVars page.context answer
  vars := answer

/-- The banks on the way: the one the page is loaded with, and the one behind each edit. -/
def banks (u : Unicode) : Bank → List VarRequest → List Bank
  | bank, [] => [bank]
  | bank, request :: edits => bank :: banks u (bank.next u request) edits

/-- A page that has loaded and refreshed behind each edit. -/
def pageAfter (u : Unicode) (station : Station) (bank : Bank) (edits : List VarRequest) : Page :=
  (banks u bank edits).foldl (fun page bank => page.refreshVars bank.list) { context := station.get }

end CwStation.Macros
