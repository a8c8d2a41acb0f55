import CwStation.Model.Python

/-! # International Morse tables: `engine/morse.py` -/

namespace CwStation.Morse

/-- `ElementKind`: `"."` or `"-"`. -/
inductive ElementKind
  | dit
  | dah
  deriving DecidableEq, Repr

/-- A dot/dash string. -/
abbrev Code := List ElementKind

/-- What `encode_text` lists: `" "` for a word gap, or the code of one character. -/
inductive Symbol
  | wordGap
  | code (c : Code)
  deriving DecidableEq, Repr

/-- `UNKNOWN_CHAR`, U+FFFD. -/
def unknownChar : Str := ['\ufffd']

open ElementKind in
/-- `CHAR_TO_MORSE`, in the order of the source. -/
def charToMorse : List (Str × Code) := [
  (['A'], [dit, dah]), (['B'], [dah, dit, dit, dit]), (['C'], [dah, dit, dah, dit]),
  (['D'], [dah, dit, dit]), (['E'], [dit]), (['F'], [dit, dit, dah, dit]),
  (['G'], [dah, dah, dit]), (['H'], [dit, dit, dit, dit]), (['I'], [dit, dit]),
  (['J'], [dit, dah, dah, dah]), (['K'], [dah, dit, dah]), (['L'], [dit, dah, dit, dit]),
  (['M'], [dah, dah]), (['N'], [dah, dit]), (['O'], [dah, dah, dah]),
  (['P'], [dit, dah, dah, dit]), (['Q'], [dah, dah, dit, dah]), (['R'], [dit, dah, dit]),
  (['S'], [dit, dit, dit]), (['T'], [dah]), (['U'], [dit, dit, dah]),
  (['V'], [dit, dit, dit, dah]), (['W'], [dit, dah, dah]), (['X'], [dah, dit, dit, dah]),
  (['Y'], [dah, dit, dah, dah]), (['Z'], [dah, dah, dit, dit]),
  (['0'], [dah, dah, dah, dah, dah]), (['1'], [dit, dah, dah, dah, dah]),
  (['2'], [dit, dit, dah, dah, dah]), (['3'], [dit, dit, dit, dah, dah]),
  (['4'], [dit, dit, dit, dit, dah]), (['5'], [dit, dit, dit, dit, dit]),
  (['6'], [dah, dit, dit, dit, dit]), (['7'], [dah, dah, dit, dit, dit]),
  (['8'], [dah, dah, dah, dit, dit]), (['9'], [dah, dah, dah, dah, dit]),
  (['.'], [dit, dah, dit, dah, dit, dah]), ([','], [dah, dah, dit, dit, dah, dah]),
  (['?'], [dit, dit, dah, dah, dit, dit]), (['\''], [dit, dah, dah, dah, dah, dit]),
  (['!'], [dah, dit, dah, dit, dah, dah]), (['/'], [dah, dit, dit, dah, dit]),
  (['('], [dah, dit, dah, dah, dit]), ([')'], [dah, dit, dah, dah, dit, dah]),
  (['&'], [dit, dah, dit, dit, dit]), ([':'], [dah, dah, dah, dit, dit, dit]),
  ([';'], [dah, dit, dah, dit, dah, dit]), (['='], [dah, dit, dit, dit, dah]),
  (['+'], [dit, dah, dit, dah, dit]), (['-'], [dah, dit, dit, dit, dit, dah]),
  (['_'], [dit, dit, dah, dah, dit, dah]), (['"'], [dit, dah, dit, dit, dah, dit]),
  (['@'], [dit, dah, dah, dit, dah, dit]),
  (['<', 'A', 'R', '>'], [dit, dah, dit, dah, dit]),
  (['<', 'S', 'K', '>'], [dit, dit, dit, dah, dit, dah]),
  (['<', 'B', 'T', '>'], [dah, dit, dit, dit, dah]),
  (['<', 'K', 'N', '>'], [dah, dit, dah, dah, dit]),
  (['<', 'B', 'K', '>'], [dah, dit, dit, dit, dah, dit, dah]),
  (['<', 'A', 'S', '>'], [dit, dah, dit, dit, dit]),
  (['<', 'C', 'T', '>'], [dah, dit, dah, dit, dah]),
  (['<', 'K', 'A', '>'], [dah, dit, dah, dit, dah])]

/-- `d[key] = value` on an insertion-ordered dictionary. -/
def assign {κ ν : Type} [DecidableEq κ] (key : κ) (value : ν) : List (κ × ν) → List (κ × ν)
  | [] => [(key, value)]
  | (k, v) :: rest => if k = key then (k, value) :: rest else (k, v) :: assign key value rest

/-- `MORSE_TO_CHAR`: a prosign never displaces an entry, a plain character does. -/
def morseToChar : List (Code × Str) :=
  charToMorse.foldl (fun table (ch, code) =>
    if (table.lookup code).isNone || ch.head? != some '<' then assign code ch table
    else table) []

def decodeSymbol (code : Code) : Str := (morseToChar.lookup code).getD unknownChar

/-- `up[i : up.find(">", i) + 1]` when there is a `">"` to find. -/
def bracketed (s : Str) : Option Str :=
  if '>' ∈ s then some (s.takeWhile (· != '>') ++ ['>']) else none

/-- The loop of `encode_text` over the upper-cased text. The counter is the number of
characters an inline prosign still covers. -/
def encodeFrom : ℕ → Str → List Symbol
  | _, [] => []
  | skip + 1, _ :: cs => encodeFrom skip cs
  | 0, c :: cs =>
      if c = ' ' then .wordGap :: encodeFrom 0 cs
      else
        let prosign := if c = '<' then
            (bracketed (c :: cs)).bind fun name =>
              (charToMorse.lookup name).map fun code => (name, code)
          else none
        match prosign with
        | some (name, code) => .code code :: encodeFrom (name.length - 1) cs
        | none =>
            match charToMorse.lookup [c] with
            | some code => .code code :: encodeFrom 0 cs
            | none => encodeFrom 0 cs

theorem encodeFrom_gap (rest : Str) : encodeFrom 0 (' ' :: rest) = .wordGap :: encodeFrom 0 rest := by
  rw [encodeFrom, if_pos rfl]

def encodeText (u : Unicode) (text : Str) : List Symbol := encodeFrom 0 (u.upper text)

example : encodeText .ascii "73 <sk>".toList =
    [.code [.dah, .dah, .dit, .dit, .dit], .code [.dit, .dit, .dit, .dah, .dah], .wordGap,
      .code [.dit, .dit, .dit, .dah, .dit, .dah]] := by decide +kernel

end CwStation.Morse

/-! ## Structured events emitted by the engines: `engine/events.py` -/

namespace CwStation

open Morse (ElementKind Code)

/-- A completed run of the keyed line being on (mark) or off (space). -/
structure KeyRun (F : Type) where
  on : Bool
  tStart : F
  durMs : F
  deriving DecidableEq, Repr

/-- A single decoded Morse element. -/
structure ElementEvent (F : Type) where
  kind : ElementKind
  tStart : F
  durMs : F
  deriving DecidableEq, Repr

/-- A decoded character, prosign or word space. -/
structure CharEvent (F : Type) where
  char : Str
  morse : Code
  tStart : F
  tEnd : F
  wpm : F
  snrDb : F
  confidence : F
  deriving DecidableEq, Repr

/-- Everything a decode pass produced. -/
structure DecodeResult (F : Type) where
  text : Str := []
  engine : Str := ['c', 'w']
  chars : List (CharEvent F) := []
  elements : List (ElementEvent F) := []
  keyRuns : List (KeyRun F) := []
  envelopeT : List F := []
  envelopeMag : List F := []
  envelopeThr : List F := []
  sampleRate : ℕ
  toneHz : F
  wpmFinal : F
  deriving DecidableEq, Repr

end CwStation
