import CwStation.Library.Edges
import CwStation.Model.Morse

/-! # Keying a text: `engine/synth.py`

The keying of `synthesize_cw`, in seconds: a segment is the keyed state and how long it
lasts, before it is counted in samples and shaped into audio. -/

namespace CwStation.Synth

open Morse (ElementKind Code Symbol)

/-- `dit_seconds(wpm)`. -/
def ditSeconds (wpm : ℚ) : ℚ := 6 / 5 / wpm

def elementLength (unit : ℚ) : ElementKind → ℚ
  | .dit => unit
  | .dah => 3 * unit

/-- The segments of the elements of one character, with the gaps between them. -/
def elementSegments (unit : ℚ) : Code → List (Bool × ℚ)
  | [] => []
  | [el] => [(true, elementLength unit el)]
  | el :: els => (true, elementLength unit el) :: (false, unit) :: elementSegments unit els

def symbolSegments (unit : ℚ) : Symbol → List (Bool × ℚ)
  | .wordGap => [(false, 4 * unit)]
  | .code code => elementSegments unit code ++ [(false, 3 * unit)]

/-- `segments`, with the silence `lead` before and after. -/
def segments (unit lead : ℚ) (symbols : List Symbol) : List (Bool × ℚ) :=
  (false, lead) :: (symbols.flatMap (symbolSegments unit) ++ [(false, lead)])

/-- Put a segment in front of key runs; next to a run of its own state it lengthens it. -/
def prepend (segment : Bool × ℚ) : List (Bool × ℚ) → List (Bool × ℚ)
  | [] => [segment]
  | run :: runs =>
      if segment.1 = run.1 then (run.1, segment.2 + run.2) :: runs else segment :: run :: runs

/-- The key runs of the keying: in `keying` adjacent segments of one state are one run. -/
def keyRuns (unit lead : ℚ) (symbols : List Symbol) : List (Bool × ℚ) :=
  (segments unit lead symbols).foldr prepend []

end CwStation.Synth

/-! ## The envelope

`synthesize_cw` up to the envelope that the tone is multiplied with, over floats. The cosine is not
computed: the rising ramp of each length is given. -/

namespace CwStation.Keying

open Morse (ElementKind Code Symbol)
open PyFloat (lit)

/-! ### Segments -/

section segments

variable {F : Type} [PyFloat F]

/-- `dit_seconds(wpm)`. -/
def ditSeconds (wpm : F) : Except PyExc F := PyFloat.divide (lit (6 / 5)) wpm

def elementLength (unit : F) : ElementKind → F
  | .dit => unit
  | .dah => lit 3 * unit

/-- The segments of the elements of one character, with the gaps between them. -/
def elementSegments (unit : F) : Code → List (Bool × F)
  | [] => []
  | [el] => [(true, elementLength unit el)]
  | el :: els => (true, elementLength unit el) :: (false, unit) :: elementSegments unit els

def symbolSegments (unit : F) : Symbol → List (Bool × F)
  | .wordGap => [(false, lit 4 * unit)]
  | .code code => elementSegments unit code ++ [(false, lit 3 * unit)]

/-- `segments` in seconds, with the silence `lead` before and after. -/
def segments (unit lead : F) (symbols : List Symbol) : List (Bool × F) :=
  (false, lead) :: (symbols.flatMap (symbolSegments unit) ++ [(false, lead)])

/-- `n_samples`; seconds are not negative. -/
def nSamples (sampleRate : ℕ) (seconds : F) : Except PyExc ℕ :=
  (PyFloat.roundInt (seconds * lit sampleRate)).map Int.toNat

def countSamples (sampleRate : ℕ) : List (Bool × F) → Except PyExc (List (Bool × ℕ))
  | [] => .ok []
  | (state, seconds) :: rest => do
      let n ← nSamples sampleRate seconds
      return (state, n) :: (← countSamples sampleRate rest)

end segments

/-! ### Shaping the edges -/

/-- The value of a sample that is keyed or not. -/
def level (state : Bool) : ℚ := if state then 1 else 0

/-- `keying`. -/
def keying (segments : List (Bool × ℕ)) : List ℚ :=
  Edges.fromRuns (segments.map fun (state, n) => (level state, n))

/-- `np.diff`. -/
def diff (env : List ℚ) : List ℚ := List.zipWith (fun x y => y - x) env env.tail

/-- `np.where(...)[0]`. -/
def indices (q : ℚ → Bool) (xs : List ℚ) : List ℕ :=
  (xs.zipIdx.filter fun x => q x.1).map Prod.snd

def rising (env : List ℚ) : List ℕ := (indices (fun d => 0 < d) (diff env)).map (· + 1)

def falling (env : List ℚ) : List ℕ := (indices (fun d => d < 0) (diff env)).map (· + 1)

/-- `_shape_edges`, with `ramp_up` for every `ramp_n`. -/
def shapeEdges (rampUp : ℕ → List ℚ) (env : List ℚ) (rampN : ℕ) : List ℚ :=
  if rampN ≤ 1 then env
  else (falling env).foldl (Edges.write (rampUp rampN).reverse)
    ((rising env).foldl (Edges.write (rampUp rampN)) env)

structure Envelope where
  keying : List ℚ
  shaped : List ℚ

/-- `synthesize_cw` up to `shaped`. -/
def synthesizeCw {F : Type} [PyFloat F] (u : Unicode) (rampUp : ℕ → List ℚ) (text : Str) (wpm : F)
    (sampleRate : ℕ) (riseMs leadMs : F) : Except PyExc Envelope := do
  let unit ← ditSeconds wpm
  let segments ← countSamples sampleRate
    (segments unit (leadMs / lit 1000) (Morse.encodeText u text))
  let rampN ← nSamples sampleRate (riseMs / lit 1000)
  return { keying := keying segments, shaped := shapeEdges rampUp (keying segments) (max 1 rampN) }

end CwStation.Keying
