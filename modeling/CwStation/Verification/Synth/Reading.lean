import CwStation.Verification.Python.Strings
import CwStation.Verification.Synth.Parts

/-! # Reading the parts of a message

What a reader that names every part correctly writes down: the message with unknown
characters left out, blanks collapsed and none at the ends. -/

namespace CwStation.Synth

open Morse (ElementKind Code Symbol decodeSymbol decodeSymbol_ne_nil decodeSymbol_isSpace)

/-- The text of one symbol. -/
def symbolText : Symbol → Str
  | .wordGap => [' ']
  | .code code => decodeSymbol code

/-- The message as it should be copied. -/
def normalised (symbols : List Symbol) : Str := collapseSpaces (symbols.flatMap symbolText)

/-- The text once the pending symbol is written down. -/
def written (s : Code × Str) : Str := if s.1 = [] then s.2 else s.2 ++ decodeSymbol s.1

/-- A blank behind a word. -/
def spaced (text : Str) : Str :=
  if text = [] ∨ endsWithSpace text then text else text ++ [' ']

/-- One part: the pending symbol and the text so far. -/
def readPart (s : Code × Str) : Part → Code × Str
  | .mark k => (s.1 ++ [k], s.2)
  | .elementGap => s
  | .charGap => ([], written s)
  | .wordGap => ([], spaced (written s))

theorem foldl_codeParts (code cur : Code) (text : Str) :
    (codeParts code).foldl readPart (cur, text) = (cur ++ code, text) := by
  induction code generalizing cur with
  | nil => simp [codeParts]
  | cons k ks ih =>
    cases ks with
    | nil => rfl
    | cons k' ks =>
      simp only [codeParts, List.foldl_cons, readPart]
      rw [ih]
      simp

theorem written_of_ne_nil {cur : Code} (h : cur ≠ []) (text : Str) :
    written (cur, text) = text ++ decodeSymbol cur := by
  simp [written, h]

theorem spaced_symbol (text : Str) (code : Code) :
    spaced (text ++ decodeSymbol code) = text ++ decodeSymbol code ++ [' '] := by
  have hne := decodeSymbol_ne_nil code
  have hend : endsWithSpace (text ++ decodeSymbol code) = false := by
    rw [endsWithSpace, beq_eq_false_iff_ne, List.getLast?_append_of_ne_nil _ hne]
    intro hlast
    have hspace := decodeSymbol_isSpace code ' ' (List.mem_of_getLast? hlast)
    exact absurd hspace (by decide)
  rw [spaced, if_neg]
  simp [hne, hend]

theorem rstrip_spaced_symbol (text : Str) (code : Code) :
    rstrip (spaced (text ++ decodeSymbol code)) = text ++ decodeSymbol code := by
  have hne := decodeSymbol_ne_nil code
  have hlast := decodeSymbol_isSpace code _ (List.getLast_mem hne)
  rw [spaced_symbol, rstrip_append_space (by decide),
    ← List.dropLast_append_getLast hne, ← List.append_assoc]
  exact rstrip_of_last hlast

/-- The rest of the copy behind a character, and behind a word gap. -/
def copyAfter (word : Bool) (symbols : List Symbol) : Str :=
  if word then
    if splitSpaces (symbols.flatMap symbolText) = [] then []
    else ' ' :: collapseSpaces (symbols.flatMap symbolText)
  else collapseAfter (symbols.flatMap symbolText)

theorem copyAfter_code (word : Bool) (code : Code) (symbols : List Symbol) :
    copyAfter word (.code code :: symbols) =
      (if word then [' '] else []) ++ (decodeSymbol code ++ copyAfter false symbols) := by
  have hne := decodeSymbol_ne_nil code
  have hspace := decodeSymbol_isSpace code
  cases word with
  | false =>
    simp only [copyAfter, List.flatMap_cons, symbolText, Bool.false_eq_true, ite_false,
      List.nil_append, collapseAfter_append hspace]
  | true =>
    have hcopy : collapseSpaces (decodeSymbol code ++ symbols.flatMap symbolText) =
        decodeSymbol code ++ collapseAfter (symbols.flatMap symbolText) :=
      collapseSpaces_append hne hspace _
    have hsplit : splitSpaces (decodeSymbol code ++ symbols.flatMap symbolText) ≠ [] := by
      intro hnil
      rw [collapseSpaces, hnil] at hcopy
      exact hne (List.append_eq_nil_iff.mp hcopy.symm).1
    simp only [copyAfter, List.flatMap_cons, symbolText, hsplit, ite_true, ite_false, hcopy,
      Bool.false_eq_true, List.cons_append, List.nil_append]

theorem copyAfter_wordGap (word : Bool) (symbols : List Symbol) :
    copyAfter word (.wordGap :: symbols) = copyAfter true symbols := by
  have hblank : isSpace ' ' = true := by decide
  cases word with
  | false => exact collapseAfter_cons_space hblank _
  | true =>
    simp only [copyAfter, List.flatMap_cons, symbolText, List.cons_append, List.nil_append,
      splitSpaces_cons_space hblank, collapseSpaces_cons_space hblank, ite_true]

/-- Reading on from a pending symbol. -/
theorem read_partsAfter {cur : Code} (hcur : cur ≠ []) (text : Str) (word : Bool)
    {symbols : List Symbol} (hcodes : ∀ code, Symbol.code code ∈ symbols → code ≠ []) :
    rstrip (spaced (written ((partsAfter word symbols).foldl readPart (cur, text)))) =
      text ++ decodeSymbol cur ++ copyAfter word symbols := by
  induction symbols generalizing cur text word with
  | nil =>
    rw [partsAfter, List.foldl_nil, written_of_ne_nil hcur, rstrip_spaced_symbol]
    cases word <;> simp [copyAfter, collapseAfter, splitSpaces, splitFrom, List.intercalate]
  | cons symbol symbols ih =>
    have hrest : ∀ code, Symbol.code code ∈ symbols → code ≠ [] :=
      fun code hcode => hcodes code (List.mem_cons_of_mem _ hcode)
    cases symbol with
    | wordGap =>
      rw [partsAfter, ih hcur text true hrest]
      rw [copyAfter_wordGap]
    | code code =>
      have hcode : code ≠ [] := hcodes code List.mem_cons_self
      rw [partsAfter, List.foldl_cons, List.foldl_append, copyAfter_code]
      cases word with
      | false =>
        simp only [gapPart, Bool.false_eq_true, ite_false, readPart, foldl_codeParts,
          List.nil_append]
        rw [ih hcode _ false hrest, written_of_ne_nil hcur]
        simp
      | true =>
        simp only [gapPart, ite_true, readPart, foldl_codeParts, List.nil_append]
        rw [ih hcode _ false hrest, written_of_ne_nil hcur, spaced_symbol]
        simp

/-- A reader that names every part correctly copies the message. -/
theorem read_parts {symbols : List Symbol}
    (hcodes : ∀ code, Symbol.code code ∈ symbols → code ≠ []) :
    rstrip (spaced (written ((parts symbols).foldl readPart ([], [])))) = normalised symbols := by
  induction symbols with
  | nil => rfl
  | cons symbol symbols ih =>
    have hrest : ∀ code, Symbol.code code ∈ symbols → code ≠ [] :=
      fun code hcode => hcodes code (List.mem_cons_of_mem _ hcode)
    cases symbol with
    | wordGap =>
      rw [parts, ih hrest]
      exact (collapseSpaces_cons_space (by decide) _).symm
    | code code =>
      have hcode : code ≠ [] := hcodes code List.mem_cons_self
      rw [parts, List.foldl_append, foldl_codeParts, List.nil_append,
        read_partsAfter hcode _ false hrest, List.nil_append]
      rw [normalised, List.flatMap_cons, symbolText,
        collapseSpaces_append (decodeSymbol_ne_nil code) (decodeSymbol_isSpace code)]
      rfl

end CwStation.Synth
