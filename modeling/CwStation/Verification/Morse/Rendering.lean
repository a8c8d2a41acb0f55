import CwStation.Model.Morse
import Mathlib.Data.Bool.AllAny

/-! # Facts about the Morse tables -/

namespace CwStation.Morse

theorem mem_of_lookup {κ ν : Type} [BEq κ] [LawfulBEq κ] {key : κ} {value : ν}
    {table : List (κ × ν)} (h : table.lookup key = some value) : (key, value) ∈ table := by
  obtain ⟨front, back, rfl, _⟩ := List.lookup_eq_some_iff.mp h
  simp

/-- Every symbol of a message is in the table. -/
theorem encodeFrom_lookup (skip : ℕ) (text : Str) :
    ∀ code, Symbol.code code ∈ encodeFrom skip text → ∃ name, charToMorse.lookup name = some code := by
  induction text generalizing skip with
  | nil => simp [encodeFrom]
  | cons c cs ih =>
    intro code hmem
    cases skip with
    | succ skip =>
      rw [encodeFrom] at hmem
      exact ih skip code hmem
    | zero =>
      rw [encodeFrom] at hmem
      split at hmem
      · simp only [List.mem_cons, reduceCtorEq, false_or] at hmem
        exact ih 0 code hmem
      · dsimp only at hmem
        split at hmem
        · rename_i name code' hp
          rcases List.mem_cons.mp hmem with heq | hmem
          · split at hp
            · simp only [Option.bind_eq_some_iff, Option.map_eq_some_iff,
                Prod.mk.injEq] at hp
              obtain ⟨_, _, _, hlookup, _, rfl⟩ := hp
              cases heq
              exact ⟨_, hlookup⟩
            · cases hp
          · exact ih _ code hmem
        · split at hmem
          · rename_i code' hlookup
            rcases List.mem_cons.mp hmem with heq | hmem
            · cases heq
              exact ⟨_, hlookup⟩
            · exact ih 0 code hmem
          · exact ih 0 code hmem

/-! ## Rendering Morse and encoding it again

The text of every known code is read back as that code, whatever follows it: a prosign brings
its own closing bracket, and no other text begins with an opening one. -/

/-- A code of the table. -/
def Known (code : Code) : Prop := (morseToChar.lookup code).isSome

/-- The text of a symbol. -/
def Symbol.text : Symbol → Str
  | .wordGap => [' ']
  | .code c => decodeSymbol c

/-- The texts of the symbols, one after the other. -/
def render (symbols : List Symbol) : Str := symbols.flatMap Symbol.text

/-! ## One code -/

theorem encodeFrom_drop (s rest : Str) : encodeFrom s.length (s ++ rest) = encodeFrom 0 rest := by
  induction s with
  | nil => rfl
  | cons c s ih => exact ih

theorem bracketed_append {s : Str} (h : '>' ∉ s) (rest : Str) :
    bracketed (s ++ '>' :: rest) = some (s ++ ['>']) := by
  have hmem : '>' ∈ s ++ '>' :: rest := by simp
  have hstop : ∀ c ∈ s, (c != '>') = true := by
    intro c hc
    rw [bne_iff_ne]
    rintro rfl
    exact h hc
  rw [bracketed, if_pos hmem, List.takeWhile_append_of_pos hstop]
  simp

/-- A plain character that the table has. -/
theorem encodeFrom_char {c : Char} {code : Code} (hgap : c ≠ ' ') (hplain : c ≠ '<')
    (h : charToMorse.lookup [c] = some code) (rest : Str) :
    encodeFrom 0 (c :: rest) = .code code :: encodeFrom 0 rest := by
  rw [encodeFrom, if_neg hgap]
  simp only [hplain, ite_false, h]

/-- A prosign that the table has. -/
theorem encodeFrom_prosign {name : Str} {code : Code} (hname : '>' ∉ name)
    (h : charToMorse.lookup ('<' :: name ++ ['>']) = some code) (rest : Str) :
    encodeFrom 0 ('<' :: name ++ '>' :: rest) = .code code :: encodeFrom 0 rest := by
  have hopen : '>' ∉ '<' :: name := by simp [hname]
  have hfound : bracketed ('<' :: (name ++ '>' :: rest)) = some ('<' :: name ++ ['>']) :=
    bracketed_append hopen rest
  have hgap : '<' ≠ ' ' := by decide
  have hskip : encodeFrom (name.length + 1) (name ++ '>' :: rest) = encodeFrom 0 rest := by
    have hdrop := encodeFrom_drop (name ++ ['>']) rest
    rwa [List.length_append, List.length_singleton, List.append_assoc] at hdrop
  rw [List.cons_append, encodeFrom, if_neg hgap]
  simp only [ite_true, hfound, Option.bind_some, h, Option.map_some]
  rw [← hskip]
  simp

/-- The text is one plain character, or a prosign that ends where it closes. -/
inductive Readable (code : Code) : Str → Prop
  | char (c : Char) (hgap : c ≠ ' ') (hplain : c ≠ '<')
      (h : charToMorse.lookup [c] = some code) : Readable code [c]
  | prosign (name : Str) (hname : '>' ∉ name)
      (h : charToMorse.lookup ('<' :: name ++ ['>']) = some code) :
      Readable code ('<' :: name ++ ['>'])

theorem Readable.encode {code : Code} {text : Str} (h : Readable code text) (rest : Str) :
    encodeFrom 0 (text ++ rest) = .code code :: encodeFrom 0 rest := by
  cases h with
  | char c hgap hplain h => exact encodeFrom_char hgap hplain h rest
  | prosign name hname h =>
    rw [List.append_assoc]
    exact encodeFrom_prosign hname h rest

/-- The name between the brackets of a prosign. -/
def prosignName (text : Str) : Str := text.tail.dropLast

/-- How an entry of the reverse table is found to be readable. -/
def reads (entry : Code × Str) : Bool :=
  charToMorse.lookup entry.2 = some entry.1 &&
    ((entry.2 = '<' :: prosignName entry.2 ++ ['>'] && '>' ∉ prosignName entry.2) ||
      (entry.2.length = 1 && entry.2 ≠ [' '] && entry.2 ≠ ['<']))

theorem readable_of_reads {code : Code} {text : Str} (h : reads (code, text) = true) :
    Readable code text := by
  simp only [reads, Bool.and_eq_true, Bool.or_eq_true, decide_eq_true_eq] at h
  obtain ⟨hlookup, ⟨htext, hname⟩ | ⟨⟨hone, hgap⟩, hplain⟩⟩ := h
  · rw [htext] at hlookup ⊢
    exact .prosign _ hname hlookup
  · obtain ⟨c, rfl⟩ := List.length_eq_one_iff.mp hone
    exact .char c (by simpa using hgap) (by simpa using hplain) hlookup

/-! ## The tables -/

/-- An entry of the table whose code has a text. -/
def hasText (entry : Str × Code) : Bool := (morseToChar.lookup entry.2).isSome

/-- Upper case that can be printed. -/
def printable (text : Str) : Bool :=
  text ≠ [] && text.all fun c => isSpace c = false && c.toNat < 128 && c.toUpper = c

-- One evaluation: the reverse table is computed from the other.
theorem tables_checked : (charToMorse.all (fun entry => entry.2 ≠ [] && hasText entry) &&
    morseToChar.all fun entry => reads entry && printable entry.2) = true := by
  decide +kernel

theorem charToMorse_checked : ∀ entry ∈ charToMorse, entry.2 ≠ [] ∧ hasText entry = true := by
  have hall := (Bool.and_eq_true_iff.mp tables_checked).1
  intro entry hentry
  simpa using List.all_eq_true.mp hall entry hentry

theorem morseToChar_checked :
    ∀ entry ∈ morseToChar, reads entry = true ∧ printable entry.2 = true := by
  have hall := (Bool.and_eq_true_iff.mp tables_checked).2
  intro entry hentry
  exact Bool.and_eq_true_iff.mp (List.all_eq_true.mp hall entry hentry)

theorem printable_iff {text : Str} : printable text = true ↔
    text ≠ [] ∧ ∀ c ∈ text, isSpace c = false ∧ c.toNat < 128 ∧ c.toUpper = c := by
  simp [printable, and_assoc]

/-- A symbol decodes to some text without white space, known or not. -/
theorem decodeSymbol_text (code : Code) :
    decodeSymbol code ≠ [] ∧ ∀ c ∈ decodeSymbol code, isSpace c = false := by
  unfold decodeSymbol
  cases h : morseToChar.lookup code with
  | none =>
    simp only [Option.getD_none]
    exact ⟨by decide, List.all_iff_forall_prop.mp (by decide)⟩
  | some ch =>
    have hprint := printable_iff.mp (morseToChar_checked _ (mem_of_lookup h)).2
    exact ⟨hprint.1, fun c hc => (hprint.2 c hc).1⟩

theorem decodeSymbol_ne_nil (code : Code) : decodeSymbol code ≠ [] :=
  (decodeSymbol_text code).1

theorem decodeSymbol_isSpace (code : Code) : ∀ c ∈ decodeSymbol code, isSpace c = false :=
  (decodeSymbol_text code).2

/-- Every symbol of a message has at least one element. -/
theorem encodeText_code_ne_nil (u : Unicode) (text : Str) :
    ∀ code, Symbol.code code ∈ encodeText u text → code ≠ [] := by
  intro code hmem
  obtain ⟨name, hlookup⟩ := encodeFrom_lookup 0 _ code hmem
  exact (charToMorse_checked (name, code) (mem_of_lookup hlookup)).1

/-- Every known code has a text that is read back as the code. -/
theorem Known.readable {code : Code} (h : Known code) : Readable code (decodeSymbol code) := by
  obtain ⟨text, htext⟩ := Option.isSome_iff_exists.mp h
  have hdecode : decodeSymbol code = text := by rw [decodeSymbol, htext, Option.getD_some]
  rw [hdecode]
  exact readable_of_reads (morseToChar_checked _ (mem_of_lookup htext)).1

/-! ## Upper case -/

theorem Known.upperCase {code : Code} (h : Known code) :
    ∀ c ∈ decodeSymbol code, c.toNat < 128 ∧ c.toUpper = c := by
  obtain ⟨text, htext⟩ := Option.isSome_iff_exists.mp h
  have hdecode : decodeSymbol code = text := by rw [decodeSymbol, htext, Option.getD_some]
  rw [hdecode]
  intro c hc
  exact ((printable_iff.mp (morseToChar_checked _ (mem_of_lookup htext)).2).2 c hc).2

/-! ## Messages -/

/-- Only word gaps and known codes. -/
def AllKnown (symbols : List Symbol) : Prop := ∀ code, .code code ∈ symbols → Known code

theorem AllKnown.tail {symbol : Symbol} {symbols : List Symbol} (h : AllKnown (symbol :: symbols)) :
    AllKnown symbols :=
  fun code hcode => h code (List.mem_cons_of_mem _ hcode)

theorem AllKnown.upperCase {symbols : List Symbol} (h : AllKnown symbols) :
    ∀ c ∈ render symbols, c.toNat < 128 ∧ c.toUpper = c := by
  intro c hc
  obtain ⟨symbol, hsymbol, hc⟩ := List.mem_flatMap.mp hc
  cases symbol with
  | wordGap =>
    rw [List.mem_singleton.mp hc]
    decide
  | code code => exact (h code hsymbol).upperCase c hc

theorem encodeFrom_render {symbols : List Symbol} (h : AllKnown symbols) :
    encodeFrom 0 (render symbols) = symbols := by
  induction symbols with
  | nil => rfl
  | cons symbol symbols ih =>
    have htail := ih h.tail
    cases symbol with
    | wordGap =>
      change encodeFrom 0 (' ' :: render symbols) = _
      rw [encodeFrom_gap, htail]
    | code code =>
      have hreads := (h code List.mem_cons_self).readable.encode (render symbols)
      rw [htail] at hreads
      exact hreads

/-- What a text is encoded to is known. -/
theorem allKnown_encodeText (u : Unicode) (text : Str) : AllKnown (encodeText u text) := by
  intro code hcode
  obtain ⟨name, hlookup⟩ := encodeFrom_lookup 0 _ code hcode
  exact (charToMorse_checked (name, code) (mem_of_lookup hlookup)).2

/-- Rendering loses nothing: neither of a text that has been encoded nor of any list of word
gaps and known codes. -/
theorem encodeText_render (u : Unicode) :
    (∀ text, encodeText u (render (encodeText u text)) = encodeText u text) ∧
      ∀ symbols, AllKnown symbols → encodeText u (render symbols) = symbols := by
  have hsymbols : ∀ symbols, AllKnown symbols → encodeText u (render symbols) = symbols := by
    intro symbols h
    rw [encodeText, upper_of_upperCase h.upperCase]
    exact encodeFrom_render h
  exact ⟨fun text => hsymbols _ (allKnown_encodeText u text), hsymbols⟩

/-- `+` and `<AR>` are one code. -/
example : render (encodeText .ascii "<ar> <sk><".toList) = "+ <SK>".toList := by decide +kernel

end CwStation.Morse
