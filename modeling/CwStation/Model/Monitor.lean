import CwStation.Library.Html

/-! # The decode window: `apps/cw/static/cw/monitor.js`

A string is the list of its code units. -/

namespace CwStation.Monitor

open Html (CodeUnit units)

/-- `escapeHtml` of one code unit. -/
def escapeUnit (c : CodeUnit) : List CodeUnit :=
  if c = '&'.toNat then units "&amp;"
  else if c = '<'.toNat then units "&lt;"
  else if c = '>'.toNat then units "&gt;"
  else [c]

/-- `escapeHtml`. -/
def escapeHtml (s : List CodeUnit) : List CodeUnit := s.flatMap escapeUnit

/-- `PROSIGN_GLOSS`. -/
def prosignGloss : List (List CodeUnit × List CodeUnit) := [
  (units "<SK>", units "SK — end of contact, signing off"),
  (units "<BK>", units "BK — break-in, over to you"),
  (units "<CT>", units "KA — start of message"),
  (units "+", units "AR — end of message"),
  (units "=", units "BT — separator / new thought"),
  (units "(", units "KN — go ahead, named station only"),
  (units "&", units "AS — wait / stand by")]

/-- What the decoder renders for a character it does not know. -/
def unknown : CodeUnit := '\uFFFD'.toNat

/-- What the window shows for it. -/
def placeholder : CodeUnit := '▯'.toNat

/-- The alternatives of `PROSIGN_RE`. -/
def prosigns : List (List CodeUnit) :=
  [units "<SK>", units "<BK>", units "<CT>", units "+", units "=", units "(", units "&", [unknown]]

/-- The match of `PROSIGN_RE` at the head of a text. -/
def prosignAt (text : List CodeUnit) : Option (List CodeUnit) := prosigns.find? (·.isPrefixOf text)

/-- `PROSIGN_RE.exec`: what is in front of the first match, the match, and what is behind it. -/
def exec : List CodeUnit → Option (List CodeUnit × List CodeUnit × List CodeUnit)
  | [] => none
  | c :: text =>
      match prosignAt (c :: text) with
      | some tok => some ([], tok, (c :: text).drop tok.length)
      | none => (exec text).map fun (before, tok, after) => (c :: before, tok, after)

/-- What `copyHtml` writes for a match. -/
def markup (tok : List CodeUnit) : List CodeUnit :=
  if tok = [unknown] then units "<span class=\"cw-unknown\">▯</span>"
  else units "<span class=\"cw-ps-gloss\" title=\"" ++
    (prosignGloss.lookup tok).getD (units "undefined") ++ units "\">" ++ escapeHtml tok ++
    units "</span>"

theorem prosignAt_ne_nil {text tok : List CodeUnit} (h : prosignAt text = some tok) : tok ≠ [] := by
  have hmem : tok ∈ prosigns := List.mem_of_find?_eq_some h
  rintro rfl
  exact absurd hmem (by decide)

theorem exec_length_lt {text before tok after : List CodeUnit}
    (h : exec text = some (before, tok, after)) : after.length < text.length := by
  induction text generalizing before with
  | nil => cases h
  | cons c text ih =>
    unfold exec at h
    split at h
    · rename_i tok' hat
      obtain ⟨-, -, rfl⟩ : [] = before ∧ tok' = tok ∧ (c :: text).drop tok'.length = after := by
        simpa using h
      have hpos := List.length_pos_iff.mpr (prosignAt_ne_nil hat)
      rw [List.length_drop, List.length_cons]
      omega
    · obtain ⟨⟨before', tok', after'⟩, hexec, hrest⟩ := Option.map_eq_some_iff.mp h
      cases hrest
      exact Nat.lt_succ_of_lt (ih hexec)

/-- `copyHtml`. -/
def copyHtml (text : List CodeUnit) : List CodeUnit :=
  match _h : exec text with
  | none => escapeHtml text
  | some (before, tok, after) => escapeHtml before ++ markup tok ++ copyHtml after
  termination_by text.length
  decreasing_by exact exec_length_lt _h

end CwStation.Monitor
