import Mathlib.Data.List.Basic

/-! # Parsing a fragment of HTML

The states of the tokenizer and the tree of elements, as the standard has them, for what a small
renderer writes: text, character references, and the tags of ordinary elements with quoted
attributes. Everything else is none of it. A text is a list of code units. -/

namespace CwStation.Html

abbrev CodeUnit := ℕ

/-- The code units of a text within the basic plane. -/
def units (s : String) : List CodeUnit := s.toList.map Char.toNat

/-! ## Tokens -/

/-- A start tag. -/
structure Tag where
  name : List CodeUnit
  attrs : List (List CodeUnit × List CodeUnit) := []
  deriving DecidableEq

inductive Token
  | char (c : CodeUnit)
  | start (tag : Tag)
  | close (name : List CodeUnit)
  deriving DecidableEq

/-- The states of the tokenizer, with what they have gathered. -/
inductive State
  | data
  | reference (name : List CodeUnit)
  | tagOpen
  | tagName (name : List CodeUnit)
  | closeTagOpen
  | closeTagName (name : List CodeUnit)
  | beforeAttr (tag : Tag)
  | attrName (tag : Tag) (attr : List CodeUnit)
  | beforeValue (tag : Tag) (attr : List CodeUnit)
  | value (tag : Tag) (attr value : List CodeUnit)
  | afterValue (tag : Tag)
  deriving DecidableEq

def letter (c : CodeUnit) : Bool := 'a'.toNat ≤ c && c ≤ 'z'.toNat

/-- The character references. -/
def references : List (List CodeUnit × CodeUnit) :=
  [(units "amp", '&'.toNat), (units "lt", '<'.toNat), (units "gt", '>'.toNat)]

/-- A step of the tokenizer, with the tokens that it emits. -/
def step : State → CodeUnit → Option (State × List Token)
  | .data, c =>
      if c = '&'.toNat then some (.reference [], [])
      else if c = '<'.toNat then some (.tagOpen, [])
      else some (.data, [.char c])
  | .reference name, c =>
      if c = ';'.toNat then (references.lookup name).map fun c => (.data, [.char c])
      else if letter c then some (.reference (name ++ [c]), [])
      else none
  | .tagOpen, c =>
      if c = '/'.toNat then some (.closeTagOpen, [])
      else if letter c then some (.tagName [c], [])
      else none
  | .tagName name, c =>
      if c = '>'.toNat then some (.data, [.start { name }])
      else if c = ' '.toNat then some (.beforeAttr { name }, [])
      else if letter c then some (.tagName (name ++ [c]), [])
      else none
  | .closeTagOpen, c => if letter c then some (.closeTagName [c], []) else none
  | .closeTagName name, c =>
      if c = '>'.toNat then some (.data, [.close name])
      else if letter c then some (.closeTagName (name ++ [c]), [])
      else none
  | .beforeAttr tag, c => if letter c then some (.attrName tag [c], []) else none
  | .attrName tag attr, c =>
      if c = '='.toNat then
        if attr ∈ tag.attrs.map Prod.fst then none else some (.beforeValue tag attr, [])
      else if letter c then some (.attrName tag (attr ++ [c]), [])
      else none
  | .beforeValue tag attr, c => if c = '"'.toNat then some (.value tag attr [], []) else none
  | .value tag attr value, c =>
      if c = '"'.toNat then some (.afterValue { tag with attrs := tag.attrs ++ [(attr, value)] }, [])
      else if c = '&'.toNat ∨ c = 0 then none
      else some (.value tag attr (value ++ [c]), [])
  | .afterValue tag, c =>
      if c = '>'.toNat then some (.data, [.start tag])
      else if c = ' '.toNat then some (.beforeAttr tag, [])
      else none

/-- The state behind a text, with the tokens of the text. -/
def run : State → List CodeUnit → Option (State × List Token)
  | state, [] => some (state, [])
  | state, c :: text => do
      let (state, tokens) ← step state c
      let (state, rest) ← run state text
      return (state, tokens ++ rest)

/-! ## The tree -/

inductive Node
  | text (c : CodeUnit)
  | element (tag : Tag) (children : List Node)

/-- Elements that have no rules of their own. -/
def ordinary : List (List CodeUnit) := [units "span", units "abbr", units "mark", units "kbd"]

/-- The tree of the tokens, with the elements that are open and what stands in front of these. A
null character is dropped. -/
def build : List Token → List (Tag × List Node) → List Node → Option (List Node)
  | [], [], nodes => some nodes
  | [], _ :: _, _ => none
  | .char c :: tokens, stack, nodes =>
      build tokens stack (if c = 0 then nodes else nodes ++ [.text c])
  | .start tag :: tokens, stack, nodes =>
      if tag.name ∈ ordinary then build tokens ((tag, nodes) :: stack) [] else none
  | .close _ :: _, [], _ => none
  | .close name :: tokens, (tag, before) :: stack, nodes =>
      if tag.name = name then build tokens stack (before ++ [.element tag nodes]) else none

/-- The newlines of the input stream: a carriage return is one, also with a line feed behind it. -/
def newlines : Bool → List CodeUnit → List CodeUnit
  | _, [] => []
  | afterReturn, c :: text =>
      if c = '\r'.toNat then '\n'.toNat :: newlines true text
      else if c = '\n'.toNat ∧ afterReturn = true then newlines false text
      else c :: newlines false text

/-- The nodes of a fragment. -/
def parse (html : List CodeUnit) : Option (List Node) := do
  let (state, tokens) ← run .data (newlines false html)
  if state = .data then build tokens [] [] else none

mutual

/-- The text content of a node. -/
def Node.textContent : Node → List CodeUnit
  | .text c => [c]
  | .element _ children => textContent children

def textContent : List Node → List CodeUnit
  | [] => []
  | node :: nodes => node.textContent ++ textContent nodes

end

mutual

/-- The tags of the elements in a node, itself included. -/
def Node.tags : Node → List Tag
  | .text _ => []
  | .element tag children => tag :: tags children

def tags : List Node → List Tag
  | [] => []
  | node :: nodes => node.tags ++ tags nodes

end

/-! ## Rules -/

section rules

variable {state state' : State} {text text' : List CodeUnit} {tokens tokens' : List Token}

theorem run_append (h : run state text = some (state', tokens)) :
    run state (text ++ text') = (run state' text').map fun r => (r.1, tokens ++ r.2) := by
  induction text generalizing state tokens with
  | nil =>
    obtain ⟨rfl, rfl⟩ : state = state' ∧ [] = tokens := by simpa [run] using h
    simp
  | cons c text ih =>
    simp only [run, Option.bind_eq_bind, Option.bind_eq_some_iff, Prod.exists] at h
    obtain ⟨next, emitted, hstep, last, rest, hrun, hend⟩ := h
    obtain ⟨rfl, rfl⟩ : last = state' ∧ emitted ++ rest = tokens := by simpa using hend
    simp only [List.cons_append, run, hstep, ih hrun, Option.bind_eq_bind, Option.bind_some]
    cases run last text' <;> simp

theorem run_data_append (h : run .data text = some (.data, tokens))
    (h' : run .data text' = some (.data, tokens')) :
    run .data (text ++ text') = some (.data, tokens ++ tokens') := by
  rw [run_append h, h', Option.map_some]

theorem build_chars (cs : List CodeUnit) (stack : List (Tag × List Node)) (nodes : List Node) :
    build (cs.map .char ++ tokens) stack nodes =
      build tokens stack (nodes ++ (cs.filter (· ≠ 0)).map .text) := by
  induction cs generalizing nodes with
  | nil => simp
  | cons c cs ih =>
    rw [List.map_cons, List.cons_append, build, ih]
    by_cases hc : c = 0 <;> simp [hc]

/-- An element that has nothing but text in it. -/
theorem build_element {tag : Tag} (htag : tag.name ∈ ordinary) (cs : List CodeUnit)
    (stack : List (Tag × List Node)) (nodes : List Node) :
    build (.start tag :: cs.map .char ++ .close tag.name :: tokens) stack nodes =
      build tokens stack (nodes ++ [.element tag ((cs.filter (· ≠ 0)).map .text)]) := by
  rw [List.cons_append, build, if_pos htag, build_chars, build, if_pos rfl, List.nil_append]

theorem textContent_append (nodes nodes' : List Node) :
    textContent (nodes ++ nodes') = textContent nodes ++ textContent nodes' := by
  induction nodes with
  | nil => rfl
  | cons node nodes ih => simp [textContent, ih]

theorem textContent_text (cs : List CodeUnit) : textContent (cs.map .text) = cs := by
  induction cs with
  | nil => rfl
  | cons c cs ih => simp [textContent, Node.textContent, ih]

theorem tags_append (nodes nodes' : List Node) : tags (nodes ++ nodes') = tags nodes ++ tags nodes' := by
  induction nodes with
  | nil => rfl
  | cons node nodes ih => simp [tags, ih]

theorem tags_text (cs : List CodeUnit) : tags (cs.map .text) = [] := by
  induction cs with
  | nil => rfl
  | cons c cs ih => simp [tags, Node.tags, ih]

/-- A text without newlines stays. -/
theorem newlines_append (h : ∀ c ∈ text, c ≠ '\r'.toNat ∧ c ≠ '\n'.toNat) (hne : text ≠ [])
    (afterReturn : Bool) : newlines afterReturn (text ++ text') = text ++ newlines false text' := by
  induction text generalizing afterReturn with
  | nil => exact absurd rfl hne
  | cons c text ih =>
    obtain ⟨hreturn, hfeed⟩ := h c List.mem_cons_self
    rw [List.cons_append, newlines, if_neg hreturn, if_neg fun hc => hfeed hc.1, List.cons_append]
    cases text with
    | nil => rfl
    | cons d text => rw [ih (fun c hc => h c (List.mem_cons_of_mem _ hc)) (by simp)]

theorem newlines_of_none (h : '\r'.toNat ∉ text) : newlines false text = text := by
  induction text with
  | nil => rfl
  | cons c text ih =>
    rw [List.mem_cons, not_or] at h
    rw [newlines, if_neg (Ne.symm h.1), if_neg (by simp), ih h.2]

end rules

end CwStation.Html
