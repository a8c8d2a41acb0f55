import CwStation.Library.Pattern
import CwStation.Model.Python

/-! # ADIF text: `parse_adif` and `_adif_field` of `logbook.py` -/

namespace CwStation.Adif

open Pattern (Pat Match search)

/-- A record as a `dict`: field names with their values, in the order of insertion. -/
abbrev Record := List (Str × Str)

/-- `record[name] = value`. -/
def setField (name value : Str) : Record → Record
  | [] => [(name, value)]
  | (n, v) :: r => if n = name then (n, value) :: r else (n, v) :: setField name value r

/-- One letter of a pattern with `IGNORECASE`, given in lower case. Beyond ASCII no code
point is a case variant of the letters used here. -/
def letter (c : Char) : Pat Char := .one fun d => d == c || d == c.toUpper

def exactly (c : Char) : Pat Char := .one (· == c)

/-- `<eoh>` and `<eor>`, up to their last letter. -/
def markerRe (last : Char) : Pat Char :=
  .seq (exactly '<') (.seq (letter 'e') (.seq (letter 'o') (.seq (letter last) (exactly '>'))))

def eohRe : Pat Char := markerRe 'h'

def eorRe : Pat Char := markerRe 'r'

/-- `_ADIF_TAG`: `<(\w+):(\d+)(?::[^>]*)?>`. -/
def tagRe (u : Unicode) : Pat Char :=
  .seq (exactly '<') (.seq (.group (.many u.isWord 1 none)) (.seq (exactly ':')
    (.seq (.group (.many (fun c => (u.decimal c).isSome) 1 none))
      (.seq (.opt (.seq (exactly ':') (.many (· != '>') 0 none))) (exactly '>')))))

/-- The markup an iteration acts on, with `start()` and `end()` of its match. -/
inductive Mark
  | eor (start stop : ℕ)
  | tag (start stop : ℕ) (name digits : Str)

def eorMark (pos : ℕ) (found : Str × Match Char) : Mark :=
  .eor (pos + found.1.length) (pos + found.1.length + found.2.text.length)

def tagMark (pos : ℕ) (found : Str × Match Char) : Mark :=
  .tag (pos + found.1.length) (pos + found.1.length + found.2.text.length)
    (found.2.groups.headD []) (found.2.groups.tail.headD [])

/-- The searches from `pos`: the end of record if it comes before the next tag. -/
def findMark (u : Unicode) (body : Str) (pos : ℕ) : Option Mark :=
  match search (tagRe u) none (body.drop pos), search eorRe none (body.drop pos) with
  | none, none => none
  | none, some eor => some (eorMark pos eor)
  | some tag, none => some (tagMark pos tag)
  | some tag, some eor =>
      some (if eor.1.length < tag.1.length then eorMark pos eor else tagMark pos tag)

/-- `sys.maxsize`: no string is longer, and a search cannot start beyond it. -/
def maxSize : ℕ := 2 ^ 63 - 1

/-- `if current: records.append(current)`. -/
def push (current : Record) (records : List Record) : List Record :=
  if current = [] then records else records ++ [current]

/-- The loop of `parse_adif`, for at most so many iterations. -/
def parseLoop (u : Unicode) (body : Str) :
    ℕ → ℕ → Record → List Record → Option (Except PyExc (List Record))
  | 0, _, _, _ => none
  | fuel + 1, pos, current, records =>
      if maxSize < pos then
        some (.error ⟨.overflowError, "Python int too large to convert to C ssize_t"⟩)
      else match findMark u body pos with
        | none => some (.ok (push current records))
        | some (.eor _ stop) => parseLoop u body fuel stop [] (push current records)
        | some (.tag _ stop name digits) =>
            match pyInt u digits with
            | .error e => some (.error e)
            | .ok length =>
                let value := (body.drop stop).take length.toNat
                parseLoop u body fuel (stop + length.toNat) (setField (u.lower name) value current)
                  records

/-- What follows the header. -/
def bodyOf (text : Str) : Str :=
  match search eohRe none text with
  | some (_, m) => m.rest
  | none => text

def parseAdif (u : Unicode) (text : Str) : Option (Except PyExc (List Record)) :=
  parseLoop u (bodyOf text) ((bodyOf text).length + 1) 0 [] []

/-! ## Writing -/

/-- `str(n)`. -/
def decimalText (n : ℕ) : Str := Nat.toDigits 10 n

/-- `_adif_field(name, value)`. -/
def adifField (name value : Str) : Str :=
  '<' :: (name ++ ':' :: (decimalText value.length ++ '>' :: value))

/-- The line of one record. -/
def recordLine (record : Record) : Str :=
  List.intercalate [' '] (record.map fun f => adifField f.1 f.2) ++ " <EOR>".toList

/-- A log in the layout of `adif_export`. -/
def adifFile (header : Str) (records : List Record) : Str :=
  List.intercalate ['\n'] (header :: "<EOH>".toList :: [] :: records.map recordLine) ++ ['\n']

example : parseAdif .ascii (adifFile "log".toList [[("call".toList, "<eor>".toList)]]) =
    some (.ok [[("call".toList, "<eor>".toList)]]) := by decide +kernel

end CwStation.Adif
