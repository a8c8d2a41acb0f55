import CwStation.Library.Pattern
import CwStation.Model.Python

/-! # Callsigns in decoded copy: `engine/bridge.py` -/

namespace CwStation.Bridge

open Pattern (Pat findall fullmatch)

/-- `\d`. -/
def isDecimal (u : Unicode) (c : Char) : Bool := (u.decimal c).isSome

/-- `[A-Z]{1,2}\d[A-Z]{1,4}`. -/
def callShape (u : Unicode) : Pat Char :=
  .seq (.many Char.isUpper 1 (some 2)) (.seq (.one (isDecimal u)) (.many Char.isUpper 1 (some 4)))

/-- `CALLSIGN_RE`. -/
def callsignRe (u : Unicode) : Pat Char :=
  .seq (.boundary u.isWord) (.seq (.group (callShape u)) (.boundary u.isWord))

/-- `DE_CALL_RE`. -/
def deCallRe (u : Unicode) : Pat Char :=
  .seq (.boundary u.isWord) (.seq (.one (· == 'D')) (.seq (.one (· == 'E'))
    (.seq (.many isSpace 1 none) (.seq (.group (callShape u)) (.boundary u.isWord)))))

/-- `SINGLE_LETTER_PREFIXES`. -/
def singleLetterPrefixes : List Char := ['B', 'F', 'G', 'I', 'K', 'M', 'N', 'R', 'W']

/-- `MIN_UNCORROBORATED_LEN`. -/
def minUncorroboratedLen : ℕ := 4

/-- The prefix is what stands before the first digit; a call has one by its shape. -/
def hasPlausiblePrefix (u : Unicode) (call : Str) : Bool :=
  let front := call.takeWhile fun c => !u.isDigit c
  decide (1 < front.length) || singleLetterPrefixes.any fun c => front == [c]

/-- The loop of `extract_callsigns` over the tokens. -/
def noteCall (u : Unicode) (tokens afterDe : List Str) (seen : List Str) (m : Str) : List Str :=
  if m ∈ seen ∨ !hasPlausiblePrefix u m then seen
  else if m.length < minUncorroboratedLen ∧ ¬ (m ∈ afterDe ∨ tokens.count m > 1) then seen
  else seen ++ [m]

def extractCallsigns (u : Unicode) (text : Str) : List Str :=
  let upper := u.upper text
  let tokens := findall (callsignRe u) upper
  let afterDe := findall (deCallRe u) upper
  tokens.foldl (noteCall u tokens afterDe) []

example : extractCallsigns .ascii "cq de w1aw o1e de k1a k".toList =
    ["W1AW".toList, "K1A".toList] := by decide +kernel

/-! ## The live draft -/

/-- `RST_RE`. -/
def rstRe (u : Unicode) : Pat Char :=
  .seq (.boundary u.isWord) (.seq (.group (.seq (.one fun c => '1' ≤ c && c ≤ '5')
    (.seq (.one fun c => '1' ≤ c && c ≤ '9') (.one fun c => '1' ≤ c && c ≤ '9'))))
    (.boundary u.isWord))

structure QSODraft where
  raw : Str := []
  callsigns : List Str := []
  rst : List Str := []
  deriving DecidableEq

structure CWLogBridge where
  draft : QSODraft := {}
  word : Str := []
  spaceRun : ℕ := 0
  gapClose : ℤ := 3
  prevWord : Str := []
  deriving DecidableEq

namespace CWLogBridge

variable (u : Unicode)

/-- `_flush_word` on the word it takes. -/
def takeWord (b : CWLogBridge) (w : Str) : CWLogBridge :=
  if w = [] then b
  else
    let corroborated := b.prevWord = "DE".toList ∨ w ∈ b.draft.callsigns
    let draft :=
      if fullmatch (callsignRe u) w then
        if hasPlausiblePrefix u w ∧ (minUncorroboratedLen ≤ w.length ∨ corroborated) then
          { b.draft with callsigns := b.draft.callsigns ++ [w] }
        else b.draft
      else if fullmatch (rstRe u) w then { b.draft with rst := b.draft.rst ++ [w] }
      else b.draft
    { b with draft, prevWord := w }

def flushWord (b : CWLogBridge) : CWLogBridge :=
  takeWord u { b with word := [] } (strip b.word)

/-- `on_char`, with the draft it hands to `on_qso_ready`, if it does. -/
def onChar (b : CWLogBridge) (char : Str) : CWLogBridge × Option QSODraft :=
  let b := { b with draft := { b.draft with raw := b.draft.raw ++ char } }
  if char = [' '] then
    let b := flushWord u b
    let b := { b with spaceRun := b.spaceRun + 1 }
    (b, if b.gapClose ≤ b.spaceRun ∧ strip b.draft.raw ≠ [] then some b.draft else none)
  else ({ b with spaceRun := 0, word := b.word ++ char }, none)

/-- The bridge after the characters of a text, one event each. -/
def feed (b : CWLogBridge) (text : Str) : CWLogBridge :=
  text.foldl (fun b c => (onChar u b [c]).1) b

end CWLogBridge

end CwStation.Bridge
