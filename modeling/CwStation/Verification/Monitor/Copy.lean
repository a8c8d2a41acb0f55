import CwStation.Model.Monitor

/-! # Copied text injects no markup -/

namespace CwStation.Monitor

open Html

variable {text before tok after : List CodeUnit}

/-! ## Segments -/

/-- What `copyHtml` cuts a text into. -/
inductive Segment
  | plain (c : CodeUnit)
  | prosign (tok : List CodeUnit)

namespace Segment

def source : Segment → List CodeUnit
  | .plain c => [c]
  | .prosign tok => tok

def html : Segment → List CodeUnit
  | .plain c => escapeUnit c
  | .prosign tok => markup tok

/-- Unknown characters are in segments of their own. -/
def Cut : Segment → Prop
  | .plain c => c ≠ unknown
  | .prosign tok => tok ∈ prosigns

end Segment

open Segment

theorem prosignAt_spec (h : prosignAt text = some tok) : tok ∈ prosigns ∧ tok <+: text := by
  refine ⟨List.mem_of_find?_eq_some h, ?_⟩
  simpa using List.find?_some h

theorem ne_unknown_of_prosignAt {c : CodeUnit} (h : prosignAt (c :: text) = none) : c ≠ unknown := by
  rintro rfl
  have hmiss := List.find?_eq_none.mp h [unknown] (by decide)
  simp [List.isPrefixOf] at hmiss

theorem exec_none (h : exec text = none) : ∀ c ∈ text, c ≠ unknown := by
  induction text with
  | nil => nofun
  | cons c text ih =>
    unfold exec at h
    split at h
    · cases h
    · rename_i hmiss
      exact List.forall_mem_cons.mpr
        ⟨ne_unknown_of_prosignAt hmiss, ih (Option.map_eq_none_iff.mp h)⟩

theorem exec_some (h : exec text = some (before, tok, after)) :
    before ++ tok ++ after = text ∧ tok ∈ prosigns ∧ ∀ c ∈ before, c ≠ unknown := by
  induction text generalizing before with
  | nil => cases h
  | cons c text ih =>
    unfold exec at h
    split at h
    · rename_i tok' hat
      obtain ⟨hmem, rest, hrest⟩ := prosignAt_spec hat
      obtain ⟨rfl, rfl, rfl⟩ : [] = before ∧ tok' = tok ∧ (c :: text).drop tok'.length = after := by
        simpa using h
      refine ⟨?_, hmem, nofun⟩
      rw [← hrest, List.drop_left, List.nil_append]
    · rename_i hmiss
      obtain ⟨⟨before', tok', after'⟩, hexec, hcons⟩ := Option.map_eq_some_iff.mp h
      cases hcons
      obtain ⟨hsplit, hmem, hplain⟩ := ih hexec
      exact ⟨congrArg (c :: ·) hsplit, hmem,
        List.forall_mem_cons.mpr ⟨ne_unknown_of_prosignAt hmiss, hplain⟩⟩

theorem plain_source (text : List CodeUnit) : (text.map .plain).flatMap source = text := by
  induction text with
  | nil => rfl
  | cons c text ih => exact congrArg (c :: ·) ih

theorem plain_html (text : List CodeUnit) : (text.map .plain).flatMap html = escapeHtml text := by
  rw [List.flatMap_map]
  rfl

/-- Every code unit of the text is written once, in its place: by itself and escaped, or in the
markup of a prosign. -/
theorem copyHtml_segments (text : List CodeUnit) : ∃ segments : List Segment,
    copyHtml text = segments.flatMap html ∧ segments.flatMap source = text ∧
      ∀ segment ∈ segments, segment.Cut := by
  fun_induction copyHtml text with
  | case1 text hexec =>
    refine ⟨text.map .plain, (plain_html text).symm, plain_source text, ?_⟩
    exact List.forall_mem_map.mpr (exec_none hexec)
  | case2 text before tok after hexec ih =>
    obtain ⟨segments, hhtml, hsource, hcut⟩ := ih
    obtain ⟨hsplit, hmem, hplain⟩ := exec_some hexec
    refine ⟨before.map .plain ++ .prosign tok :: segments, ?_, ?_, ?_⟩
    · rw [List.flatMap_append, plain_html, List.flatMap_cons, ← hhtml, ← List.append_assoc]
      rfl
    · rw [List.flatMap_append, plain_source, List.flatMap_cons, hsource, ← List.append_assoc]
      exact hsplit
    · refine List.forall_mem_append.mpr ⟨?_, List.forall_mem_cons.mpr ⟨hmem, hcut⟩⟩
      exact List.forall_mem_map.mpr hplain

/-! ## Newlines -/

/-- The segments of a text whose newlines the parser has read. -/
def joinNewlines : Bool → List Segment → List Segment
  | _, [] => []
  | afterReturn, .plain c :: segments =>
      if c = '\r'.toNat then .plain '\n'.toNat :: joinNewlines true segments
      else if c = '\n'.toNat ∧ afterReturn = true then joinNewlines false segments
      else .plain c :: joinNewlines false segments
  | _, .prosign tok :: segments => .prosign tok :: joinNewlines false segments

theorem escapeUnit_spec (c : CodeUnit) : escapeUnit c ≠ [] ∧
    (c ≠ '\r'.toNat → c ≠ '\n'.toNat → ∀ d ∈ escapeUnit c, d ≠ '\r'.toNat ∧ d ≠ '\n'.toNat) := by
  unfold escapeUnit
  split_ifs
  · exact ⟨by decide, fun _ _ => by decide⟩
  · exact ⟨by decide, fun _ _ => by decide⟩
  · exact ⟨by decide, fun _ _ => by decide⟩
  · refine ⟨List.cons_ne_nil _ _, ?_⟩
    intro hreturn hfeed d hd
    rw [List.mem_singleton] at hd
    exact hd ▸ ⟨hreturn, hfeed⟩

theorem markup_spec : ∀ tok ∈ prosigns,
    (tok ≠ [] ∧ ∀ c ∈ tok, c ≠ '\r'.toNat ∧ c ≠ '\n'.toNat) ∧
      markup tok ≠ [] ∧ ∀ c ∈ markup tok, c ≠ '\r'.toNat ∧ c ≠ '\n'.toNat := by
  decide +kernel

theorem joinNewlines_source (afterReturn : Bool) {segments : List Segment}
    (hcut : ∀ segment ∈ segments, segment.Cut) :
    (joinNewlines afterReturn segments).flatMap source =
      newlines afterReturn (segments.flatMap source) := by
  induction segments generalizing afterReturn with
  | nil => rfl
  | cons segment segments ih =>
    obtain ⟨hsegment, hrest⟩ := List.forall_mem_cons.mp hcut
    rw [List.flatMap_cons]
    cases segment with
    | plain c =>
      simp only [joinNewlines, source, List.singleton_append, newlines]
      split_ifs
      · exact congrArg ('\n'.toNat :: ·) (ih true hrest)
      · exact ih false hrest
      · exact congrArg (c :: ·) (ih false hrest)
    | prosign tok =>
      obtain ⟨⟨hne, hnewline⟩, -⟩ := markup_spec tok hsegment
      rw [joinNewlines, List.flatMap_cons, ih false hrest, source, newlines_append hnewline hne]

/-- With more markup behind the segments, which has no newlines. -/
theorem joinNewlines_html (afterReturn : Bool) {segments : List Segment} {more : List CodeUnit}
    (hcut : ∀ segment ∈ segments, segment.Cut) (hmore : ∀ r, newlines r more = more) :
    (joinNewlines afterReturn segments).flatMap html ++ more =
      newlines afterReturn (segments.flatMap html ++ more) := by
  induction segments generalizing afterReturn with
  | nil => exact (hmore afterReturn).symm
  | cons segment segments ih =>
    obtain ⟨hsegment, hrest⟩ := List.forall_mem_cons.mp hcut
    rw [List.flatMap_cons, List.append_assoc]
    cases segment with
    | plain c =>
      rw [joinNewlines]
      split_ifs with hreturn hfeed
      · rw [hreturn]
        exact congrArg ('\n'.toNat :: ·) (ih true hrest)
      · rw [hfeed.1, hfeed.2]
        exact ih false hrest
      · rw [List.flatMap_cons, List.append_assoc, ih false hrest]
        by_cases hc : c = '\n'.toNat
        · have hafter : afterReturn = false := by simpa [hc] using hfeed
          rw [hc, hafter]
          rfl
        · obtain ⟨hne, hnewline⟩ := escapeUnit_spec c
          exact (newlines_append (hnewline hreturn hc) hne afterReturn).symm
    | prosign tok =>
      obtain ⟨-, hne, hnewline⟩ := markup_spec tok hsegment
      rw [joinNewlines, List.flatMap_cons, List.append_assoc, ih false hrest]
      exact (newlines_append hnewline hne afterReturn).symm

theorem joinNewlines_cut (afterReturn : Bool) {segments : List Segment}
    (hcut : ∀ segment ∈ segments, segment.Cut) :
    ∀ segment ∈ joinNewlines afterReturn segments, segment.Cut := by
  induction segments generalizing afterReturn with
  | nil => exact hcut
  | cons segment segments ih =>
    obtain ⟨hsegment, hrest⟩ := List.forall_mem_cons.mp hcut
    cases segment with
    | plain c =>
      rw [joinNewlines]
      split_ifs
      · exact List.forall_mem_cons.mpr
          ⟨show '\n'.toNat ≠ unknown by decide, ih true hrest⟩
      · exact ih false hrest
      · exact List.forall_mem_cons.mpr ⟨hsegment, ih false hrest⟩
    | prosign tok => exact List.forall_mem_cons.mpr ⟨hsegment, ih false hrest⟩

/-! ## The parsed copy -/

/-- What the window shows for a code unit. -/
def shown (c : CodeUnit) : CodeUnit := if c = unknown then placeholder else c

/-- The tag of a prosign, or of an unknown character. -/
def ownTag (tok : List CodeUnit) : Tag where
  name := units "span"
  attrs :=
    if tok = [unknown] then [(units "class", units "cw-unknown")]
    else [(units "class", units "cw-ps-gloss"),
      (units "title", (prosignGloss.lookup tok).getD (units "undefined"))]

namespace Segment

def tokens : Segment → List Token
  | .plain c => [.char c]
  | .prosign tok => .start (ownTag tok) :: (tok.map shown).map .char ++ [.close (units "span")]

def nodes : Segment → List Node
  | .plain c => if c = 0 then [] else [.text c]
  | .prosign tok => [.element (ownTag tok) ((tok.map shown).map .text)]

end Segment

theorem run_escapeUnit (c : CodeUnit) : run .data (escapeUnit c) = some (.data, [.char c]) := by
  unfold escapeUnit
  split_ifs with hamp hlt hgt
  · rw [hamp]
    decide
  · rw [hlt]
    decide
  · rw [hgt]
    decide
  · simp only [run, step, if_neg hamp, if_neg hlt]
    rfl

theorem run_markup : ∀ tok ∈ prosigns, run .data (markup tok) = some (.data, tokens (.prosign tok)) := by
  decide +kernel

theorem run_segments {segments : List Segment} (hcut : ∀ segment ∈ segments, segment.Cut) :
    run .data (segments.flatMap html) = some (.data, segments.flatMap tokens) := by
  induction segments with
  | nil => rfl
  | cons segment segments ih =>
    obtain ⟨hsegment, hrest⟩ := List.forall_mem_cons.mp hcut
    apply run_data_append _ (ih hrest)
    cases segment with
    | plain c => exact run_escapeUnit c
    | prosign tok => exact run_markup tok hsegment

theorem build_segments {segments : List Segment} (hcut : ∀ segment ∈ segments, segment.Cut)
    (rest : List Token) (before : List Node) :
    build (segments.flatMap tokens ++ rest) [] before =
      build rest [] (before ++ segments.flatMap nodes) := by
  induction segments generalizing before with
  | nil => simp
  | cons segment segments ih =>
    obtain ⟨hsegment, hrest⟩ := List.forall_mem_cons.mp hcut
    rw [List.flatMap_cons, List.flatMap_cons, List.append_assoc, ← List.append_assoc before]
    cases segment with
    | plain c =>
      have hchar : build ([c].map .char ++ (segments.flatMap tokens ++ rest)) [] before =
          _ := build_chars [c] [] before
      simp only [List.map_cons, List.map_nil, List.singleton_append] at hchar
      rw [tokens, List.singleton_append, hchar, ih hrest, nodes]
      by_cases hc : c = 0 <;> simp [hc]
    | prosign tok =>
      have hkept : (tok.map shown).filter (· ≠ 0) = tok.map shown := by
        have hnonzero : ∀ tok ∈ prosigns, ∀ c ∈ tok.map shown, c ≠ 0 := by decide
        rw [List.filter_eq_self]
        intro c hc
        exact decide_eq_true (hnonzero tok hsegment c hc)
      have hname : (ownTag tok).name = units "span" := rfl
      have hordinary : (ownTag tok).name ∈ ordinary := by
        rw [hname]
        decide
      rw [tokens, nodes, ← ih hrest, List.append_assoc, List.singleton_append, ← hname,
        build_element hordinary, hkept]

theorem textContent_segments {segments : List Segment} (hcut : ∀ segment ∈ segments, segment.Cut) :
    textContent (segments.flatMap nodes) =
      ((segments.flatMap source).filter (· ≠ 0)).map shown := by
  induction segments with
  | nil => rfl
  | cons segment segments ih =>
    obtain ⟨hsegment, hrest⟩ := List.forall_mem_cons.mp hcut
    rw [List.flatMap_cons, textContent_append, ih hrest, List.flatMap_cons, List.filter_append,
      List.map_append]
    congr 1
    cases segment with
    | plain c =>
      have hshown : shown c = c := if_neg hsegment
      rw [nodes, source]
      by_cases hc : c = 0
      · simp [hc, textContent]
      · simp [hc, textContent, Node.textContent, hshown]
    | prosign tok =>
      have hnonzero : ∀ tok ∈ prosigns, ∀ c ∈ tok, c ≠ 0 := by decide
      have hkept : tok.filter (· ≠ 0) = tok :=
        List.filter_eq_self.mpr fun c hc => decide_eq_true (hnonzero tok hsegment c hc)
      rw [nodes, source, hkept, textContent, Node.textContent, textContent_text, textContent,
        List.append_nil]

theorem tags_segments {segments : List Segment} (hcut : ∀ segment ∈ segments, segment.Cut) :
    ∀ tag ∈ tags (segments.flatMap nodes), tag ∈ prosigns.map ownTag := by
  induction segments with
  | nil => nofun
  | cons segment segments ih =>
    obtain ⟨hsegment, hrest⟩ := List.forall_mem_cons.mp hcut
    rw [List.flatMap_cons, tags_append]
    refine List.forall_mem_append.mpr ⟨?_, ih hrest⟩
    cases segment with
    | plain c => by_cases hc : c = 0 <;> simp [nodes, hc, tags, Node.tags]
    | prosign tok =>
      rw [nodes, tags, Node.tags, tags_text, tags, List.append_nil, List.forall_mem_singleton]
      exact List.mem_map_of_mem hsegment

/-- The nodes of a copy, with more markup behind it. -/
theorem parse_copyHtml (text : List CodeUnit) {more : List CodeUnit} {moreTokens : List Token}
    (hnewlines : ∀ r, newlines r more = more) (hmore : run .data more = some (.data, moreTokens)) :
    ∃ nodes, parse (copyHtml text ++ more) = build moreTokens [] nodes ∧
      (∀ tag ∈ tags nodes, tag ∈ prosigns.map ownTag) ∧
      textContent nodes = ((newlines false text).filter (· ≠ 0)).map shown := by
  obtain ⟨segments, hhtml, hsource, hcut⟩ := copyHtml_segments text
  have hcut' := joinNewlines_cut false hcut
  refine ⟨(joinNewlines false segments).flatMap nodes, ?_, tags_segments hcut', ?_⟩
  · have hrun := run_data_append (run_segments hcut') hmore
    have hbuild := build_segments hcut' moreTokens []
    rw [List.nil_append] at hbuild
    simp only [parse, hhtml, ← joinNewlines_html false hcut hnewlines, hrun, Option.bind_eq_bind,
      Option.bind_some, if_true, hbuild]
  · rw [textContent_segments hcut', joinNewlines_source false hcut, hsource]

/-- Whatever a text is: the elements of its copy are `copyHtml`'s own spans, and its text content
is the text as a parser reads it, with a box for each unknown character; each code unit is written
escaped or is part of a prosign, and this in its span. -/
theorem copyHtml_injects_nothing (text : List CodeUnit) :
    (∃ nodes, parse (copyHtml text) = some nodes ∧
      (∀ tag ∈ tags nodes, tag ∈ prosigns.map ownTag) ∧
      textContent nodes = ((newlines false text).filter (· ≠ 0)).map shown ∧
      ('\r'.toNat ∉ text → 0 ∉ text → textContent nodes = text.map shown)) ∧
    ∃ segments : List Segment, copyHtml text = segments.flatMap html ∧
      segments.flatMap source = text ∧ ∀ segment ∈ segments, segment.Cut := by
  refine ⟨?_, copyHtml_segments text⟩
  have hnothing : run .data [] = some (.data, []) := rfl
  obtain ⟨nodes, hparse, htags, hcontent⟩ := parse_copyHtml text (fun _ => rfl) hnothing
  rw [List.append_nil] at hparse
  refine ⟨nodes, hparse, htags, hcontent, ?_⟩
  intro hreturn hnull
  have hkept : text.filter (· ≠ 0) = text :=
    List.filter_eq_self.mpr fun c hc => decide_eq_true fun h => hnull (h ▸ hc)
  rw [hcontent, newlines_of_none hreturn, hkept]

/-- A parser drops a null character, which a text may have. -/
theorem null_is_dropped : ¬ ∀ text, ∃ nodes, parse (copyHtml text) = some nodes ∧
    (∀ tag ∈ tags nodes, tag ∈ prosigns.map ownTag) ∧ textContent nodes = text.map shown := by
  intro h
  obtain ⟨nodes, hparse, -, hcontent⟩ := h [0]
  have hcopy : copyHtml [0] = [0] := by
    rw [copyHtml]
    rfl
  have hempty : nodes = [] := by
    rw [hcopy] at hparse
    exact (Option.some.inj hparse).symm
  rw [hempty] at hcontent
  exact absurd hcontent (by decide)

end CwStation.Monitor
