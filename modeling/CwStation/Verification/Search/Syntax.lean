import CwStation.Verification.Search.Expressions
import Mathlib.Data.List.TakeWhile

/-! # Which queries translate to valid syntax

The raw translation for Postgres always has its operators between pieces; what is left of a
token may still hold the characters that begin a quotation, an escape or an operator. -/

namespace CwStation.QueryParser

open TextSearch Operators

variable {u : Unicode}

/-! ## `tsquery` expressions -/

/-- Characters that have a meaning of their own inside of a word. -/
def tsReserved : List Char := ['\'', '"', '\\', '<', '>']

def tsRole : TsToken → Role
  | .word w => if w.any (· ∈ tsReserved) then .stray else .operand
  | .star => .suffix
  | .bang => .leading
  | .amp | .bar | .next => .binary
  | .opening => .opening
  | .closing => .closing

/-- A run of characters: `<->` is an operator where it stands alone. -/
def endWord (w : Str) : List TsToken :=
  if w = [] then [] else if w = "<->".toList then [.next] else [.word w]

/-- The tokens of a raw query, behind a word that has been read up to here. A word goes up to
a blank or a character that is a token of its own. -/
def tsScanFrom : Str → Str → Option (List TsToken)
  | word, [] => some (endWord word)
  | word, ':' :: '*' :: cs => (tsScanFrom [] cs).map fun ts => endWord word ++ .star :: ts
  | word, c :: cs =>
      match tsSingle c with
      | some ts => (tsScanFrom [] cs).map fun more => endWord word ++ ts ++ more
      | none => if c = ':' then none else tsScanFrom (word ++ [c]) cs

/-- The text is an expression: operators only between operands, `!` before one, and no quote,
backslash or angle bracket outside of an operator. -/
def TsValid (text : Str) : Prop :=
  ∃ ts, tsScanFrom [] text = some ts ∧ Expression False tsRole ts

/-! ### Reading a part -/

/-- The tokens `ts` are read from `part`, if a blank or the end is behind it. -/
def Scans (part : Str) (ts : List TsToken) : Prop :=
  ∀ rest : Str, (∀ c ∈ rest.head?, c = ' ') →
    tsScanFrom [] (part ++ rest) = (tsScanFrom [] rest).map (ts ++ ·)

/-- A word that `_clean_pg_term` leaves. -/
structure Clean (w : Str) : Prop where
  ne : w ≠ []
  single : ∀ c ∈ w, tsSingle c = none
  colon : ':' ∉ w

theorem tsScanFrom_single {c : Char} {ts : List TsToken} (h : tsSingle c = some ts)
    (word cs : Str) :
    tsScanFrom word (c :: cs) = (tsScanFrom [] cs).map fun more => endWord word ++ ts ++ more := by
  rw [tsScanFrom.eq_3, h]
  intro ds hc _
  have hcolon : tsSingle ':' = none := by decide
  rw [hc, hcolon] at h
  cases h

theorem tsScanFrom_word {w : Str} (hsingle : ∀ c ∈ w, tsSingle c = none) (hcolon : ':' ∉ w)
    (word rest : Str) : tsScanFrom word (w ++ rest) = tsScanFrom (word ++ w) rest := by
  induction w generalizing word with
  | nil => simp
  | cons c w ih =>
    rw [List.mem_cons, not_or] at hcolon
    have hc : c ≠ ':' := Ne.symm hcolon.1
    have htail := ih (fun d hd => hsingle d (.tail _ hd)) hcolon.2 (word ++ [c])
    rw [List.append_assoc, List.singleton_append] at htail
    rw [List.cons_append, tsScanFrom.eq_3 _ _ _ (fun _ h _ => hc h), hsingle c (.head _),
      if_neg hc, htail]

theorem tsScanFrom_blank (rest : Str) : tsScanFrom [] (' ' :: rest) = tsScanFrom [] rest := by
  rw [tsScanFrom_single (by decide : tsSingle ' ' = some [])]
  cases tsScanFrom [] rest <;> rfl

/-- What a clean word is read as. -/
def termToken (w : Str) : TsToken := if w = "<->".toList then .next else .word w

theorem Clean.endWord {w : Str} (h : Clean w) : endWord w = [termToken w] := by
  unfold QueryParser.endWord termToken
  rw [if_neg h.ne]
  split <;> rfl

theorem Clean.scan {w : Str} (h : Clean w) (rest : Str) :
    tsScanFrom [] (w ++ rest) = tsScanFrom w rest := tsScanFrom_word h.single h.colon [] rest

theorem tsScanFrom_stop {rest : Str} (hrest : ∀ c ∈ rest.head?, c = ' ') (word : Str) :
    tsScanFrom word rest = (tsScanFrom [] rest).map (endWord word ++ ·) := by
  cases rest with
  | nil => simp [tsScanFrom, endWord]
  | cons c rest =>
    have hc : c = ' ' := hrest c rfl
    subst hc
    rw [tsScanFrom_blank, tsScanFrom_single (by decide : tsSingle ' ' = some [])]
    simp

theorem scans_term {w : Str} (h : Clean w) : Scans w [termToken w] := by
  intro rest hrest
  rw [h.scan, tsScanFrom_stop hrest, h.endWord]

theorem scans_not {part : Str} {ts : List TsToken} (h : Scans part ts) :
    Scans ('!' :: part) (.bang :: ts) := by
  intro rest hrest
  rw [List.cons_append, tsScanFrom_single (by decide : tsSingle '!' = some [.bang]), h rest hrest,
    Option.map_map]
  rfl

theorem scans_star {w : Str} (h : Clean w) : Scans (w ++ ":*".toList) [termToken w, .star] := by
  intro rest _
  rw [List.append_assoc, h.scan]
  change (tsScanFrom [] rest).map (fun ts => endWord w ++ .star :: ts) = _
  rw [h.endWord]
  rfl

/-- Operands with `op` in front of each. -/
def links (op : TsToken) (operands : List (List TsToken)) : List (TsToken × List TsToken) :=
  operands.map fun ts => (op, ts)

/-- The words of a phrase up to the parenthesis behind it. -/
theorem tsScanFrom_phrase {w : Str} {ws : List Str} (h : ∀ v ∈ w :: ws, Clean v) (rest : Str) :
    tsScanFrom [] (List.intercalate " <-> ".toList (w :: ws) ++ ')' :: rest) =
      (tsScanFrom [] rest).map (([termToken w] ++
        (links .next (ws.map fun v => [termToken v])).flatMap fun l => l.1 :: l.2) ++
          .closing :: ·) := by
  induction ws generalizing w with
  | nil =>
    have hw := h w (.head _)
    rw [List.intercalate_singleton, hw.scan,
      tsScanFrom_single (by decide : tsSingle ')' = some [.closing]), hw.endWord]
    rfl
  | cons v ws ih =>
    have hw := h w (.head _)
    have htail := ih fun x hx => h x (.tail _ hx)
    have hsingle : ∀ c ∈ "<->".toList, tsSingle c = none :=
      List.forall_iff_forall_mem.mp (by decide)
    have hnext : ∀ more, tsScanFrom [] ("<->".toList ++ ' ' :: more) =
        (tsScanFrom [] more).map (.next :: ·) := by
      intro more
      rw [tsScanFrom_word hsingle (by decide), List.nil_append,
        tsScanFrom_single (by decide : tsSingle ' ' = some [])]
      rfl
    have hsplit : List.intercalate " <-> ".toList (w :: v :: ws) ++ ')' :: rest =
        w ++ ' ' :: ("<->".toList ++ ' ' ::
          (List.intercalate " <-> ".toList (v :: ws) ++ ')' :: rest)) := by
      rw [List.intercalate_cons_cons]
      simp
    rw [hsplit, hw.scan, tsScanFrom_single (by decide : tsSingle ' ' = some []), hnext, htail,
      hw.endWord, Option.map_map, Option.map_map]
    rfl

theorem scans_phrase {w : Str} {ws : List Str} (h : ∀ v ∈ w :: ws, Clean v) :
    Scans ('(' :: List.intercalate " <-> ".toList (w :: ws) ++ [')'])
      (.opening :: ([termToken w] ++
        ((links .next (ws.map fun v => [termToken v])).flatMap fun l => l.1 :: l.2) ++
          [.closing])) := by
  intro rest _
  have hphrase := tsScanFrom_phrase h rest
  have hsplit : '(' :: List.intercalate " <-> ".toList (w :: ws) ++ [')'] ++ rest =
      '(' :: (List.intercalate " <-> ".toList (w :: ws) ++ ')' :: rest) := by simp
  rw [hsplit, tsScanFrom_single (by decide : tsSingle '(' = some [.opening]), hphrase,
    Option.map_map]
  congr 1
  funext more
  simp [QueryParser.endWord]

/-! ### Words without reserved characters -/

/-- A word that holds none of the reserved characters. -/
def PlainTerm (w : Str) : Prop := ∀ c ∈ w, c ∉ tsReserved

theorem tsRole_termToken {w : Str} (h : PlainTerm w) : tsRole (termToken w) = .operand := by
  have hnext : w ≠ "<->".toList := by
    rintro rfl
    exact absurd (h '<' (by decide)) (by decide)
  have hany : w.any (· ∈ tsReserved) = false := by simpa [PlainTerm] using h
  rw [termToken, if_neg hnext, tsRole, hany]
  rfl

theorem plainTerm_of_reach {q : Place} {w : Str} {ts : List TsToken}
    (h : reach False tsRole .before (termToken w :: ts) = some q) : PlainTerm w := by
  rw [reach_cons, Option.bind_eq_some_iff] at h
  obtain ⟨r, hr, -⟩ := h
  by_cases hnext : w = "<->".toList
  · rw [termToken, if_pos hnext] at hr
    cases hr
  · rw [termToken, if_neg hnext] at hr
    by_cases hany : w.any (· ∈ tsReserved) = true
    · rw [tsRole, if_pos hany] at hr
      cases hr
    · simpa [PlainTerm] using hany

/-! ### Cleaned words -/

/-- The characters that a translation keeps of a query and that its syntax does not allow. -/
def pgUnsafe : List Char := ['\'', '\\', '<', '>']

def pgRemoved : List Char := ['&', '|', '!', '(', ')', ':', '"', '*']

theorem cleanPgTerm_eq {s : Str} (h : ∀ c ∈ s, isSpace c = false) :
    cleanPgTerm s = s.filter (· ∉ pgRemoved) := by
  rw [cleanPgTerm, strip_of_forall]
  · rfl
  · exact fun c hc => h c (List.mem_filter.mp hc).1

theorem clean_cleanPgTerm {s : Str} (h : ∀ c ∈ s, isSpace c = false) (hne : cleanPgTerm s ≠ []) :
    Clean (cleanPgTerm s) := by
  rw [cleanPgTerm_eq h] at hne ⊢
  have hkept : ∀ c ∈ s.filter (· ∉ pgRemoved), isSpace c = false ∧ c ∉ pgRemoved := by
    intro c hc
    obtain ⟨hmem, hremoved⟩ := List.mem_filter.mp hc
    exact ⟨h c hmem, of_decide_eq_true hremoved⟩
  refine ⟨hne, fun c hc => ?_, fun hc => ?_⟩
  · obtain ⟨hspace, hremoved⟩ := hkept c hc
    have hblank : ¬(c = ' ' ∨ c = '\t' ∨ c = '\n' ∨ c = '\r') := by
      rintro (rfl | rfl | rfl | rfl) <;> exact absurd hspace (by decide)
    simp only [pgRemoved, List.mem_cons, not_or] at hremoved
    simp [tsSingle, hblank, hremoved]
  · exact absurd (hkept ':' hc).2 (by decide)

/-- Cleaning a text removes none of its unsafe characters. -/
theorem plainTerm_cleanPgTerm {s : Str} (h : ∀ c ∈ s, isSpace c = false) :
    PlainTerm (cleanPgTerm s) ↔ ∀ c ∈ s, c ∉ pgUnsafe := by
  have hreserved : ∀ c : Char, c ∉ pgRemoved → (c ∈ tsReserved ↔ c ∈ pgUnsafe) := by
    intro c hc
    simp only [pgRemoved, List.mem_cons, not_or] at hc
    simp [tsReserved, pgUnsafe, hc]
  have hremoved : ∀ c ∈ pgUnsafe, c ∉ pgRemoved :=
    List.forall_iff_forall_mem.mp (by decide)
  rw [cleanPgTerm_eq h]
  constructor
  · intro hplain c hc hmem
    refine hplain c (List.mem_filter.mpr ⟨hc, decide_eq_true (hremoved c hmem)⟩) ?_
    exact (hreserved c (hremoved c hmem)).mpr hmem
  · intro hsafe c hc hmem
    obtain ⟨hin, hkept⟩ := List.mem_filter.mp hc
    exact hsafe c hin ((hreserved c (of_decide_eq_true hkept)).mp hmem)

theorem mem_splitFrom {s : Str} {c : Char} :
    (c ∈ (splitFrom s).1 ∨ ∃ w ∈ (splitFrom s).2, c ∈ w) ↔ c ∈ s ∧ isSpace c = false := by
  induction s with
  | nil => simp [splitFrom]
  | cons d s ih =>
    have hwords : (∃ w ∈ (if (splitFrom s).1 = [] then (splitFrom s).2
        else (splitFrom s).1 :: (splitFrom s).2), c ∈ w) ↔ c ∈ s ∧ isSpace c = false := by
      rw [← ih]
      by_cases hnil : (splitFrom s).1 = []
      · simp [hnil]
      · simp [hnil]
    by_cases hd : isSpace d = true
    · have hsplit : splitFrom (d :: s) = ([], if (splitFrom s).1 = [] then (splitFrom s).2
          else (splitFrom s).1 :: (splitFrom s).2) := by simp [splitFrom, hd]
      have hne : c = d → isSpace c = false → False := by
        rintro rfl hc
        rw [hd] at hc
        cases hc
      rw [hsplit, List.mem_cons, hwords]
      constructor
      · intro h
        have hmem := h.resolve_left List.not_mem_nil
        exact ⟨.inr hmem.1, hmem.2⟩
      · intro h
        exact .inr ⟨h.1.resolve_left fun hc => hne hc h.2, h.2⟩
    · have hsplit : splitFrom (d :: s) = (d :: (splitFrom s).1, (splitFrom s).2) := by
        simp [splitFrom, hd]
      have hspace : isSpace d = false := by simpa using hd
      rw [hsplit, List.mem_cons, List.mem_cons, or_assoc, ih]
      constructor
      · rintro (rfl | h)
        · exact ⟨.inl rfl, hspace⟩
        · exact ⟨.inr h.1, h.2⟩
      · rintro ⟨rfl | h, hc⟩
        · exact .inl rfl
        · exact .inr ⟨h, hc⟩

/-- The words of a text hold what is no white space in it. -/
theorem mem_splitSpaces {s : Str} {c : Char} :
    (∃ w ∈ splitSpaces s, c ∈ w) ↔ c ∈ s ∧ isSpace c = false := by
  rw [← mem_splitFrom]
  unfold splitSpaces
  by_cases hnil : (splitFrom s).1 = []
  · simp [hnil]
  · simp [hnil]

/-! ### The piece of one token -/

/-- Nothing in the text is unsafe. -/
def Safe (s : Str) : Prop := ∀ c ∈ s, c ∉ pgUnsafe

/-- What a token's piece is read as: an expression if the token is safe, and nothing that an
expression could hold if it is not. -/
structure PieceOf (token piece : Str) (ts : List TsToken) : Prop where
  scans : Scans piece ts
  expression : Safe token → Expression False tsRole ts
  safe : ∀ q, reach False tsRole .before ts = some q → Safe token

theorem pieceOf_term {token : Str} (hclean : Clean (cleanPgTerm token))
    (hspace : ∀ c ∈ token, isSpace c = false) :
    PieceOf token (cleanPgTerm token) [termToken (cleanPgTerm token)] where
  scans := scans_term hclean
  expression hsafe := .operand (tsRole_termToken ((plainTerm_cleanPgTerm hspace).mpr hsafe))
  safe _ h := (plainTerm_cleanPgTerm hspace).mp (plainTerm_of_reach h)

theorem safe_cons {c : Char} (hc : c ∉ pgUnsafe) {s : Str} : Safe (c :: s) ↔ Safe s := by
  simp [Safe, hc]

theorem pieceOf_not {inner : Str} (hclean : Clean (cleanPgTerm inner))
    (hspace : ∀ c ∈ inner, isSpace c = false) :
    PieceOf ('-' :: inner) ('!' :: cleanPgTerm inner) [.bang, termToken (cleanPgTerm inner)] where
  scans := scans_not (scans_term hclean)
  expression hsafe :=
    .leading rfl ((pieceOf_term hclean hspace).expression ((safe_cons (by decide)).mp hsafe))
  safe q h := (safe_cons (by decide)).mpr ((pieceOf_term hclean hspace).safe q h)

theorem pieceOf_star {stem : Str} (hclean : Clean (cleanPgTerm stem))
    (hspace : ∀ c ∈ stem, isSpace c = false) :
    PieceOf (stem ++ ['*']) (cleanPgTerm stem ++ ":*".toList)
      [termToken (cleanPgTerm stem), .star] where
  scans := scans_star hclean
  expression hsafe := by
    have hstem : Safe stem := fun c hc => hsafe c (List.mem_append_left _ hc)
    exact .suffixed (tsRole_termToken ((plainTerm_cleanPgTerm hspace).mpr hstem)) rfl
  safe q h := by
    have hstem : Safe stem := (plainTerm_cleanPgTerm hspace).mp (plainTerm_of_reach h)
    intro c hc
    rcases List.mem_append.mp hc with hc | hc
    · exact hstem c hc
    · rw [List.mem_singleton.mp hc]
      decide

/-- The cleaned words of a phrase. -/
def phraseTerms (inner : Str) : List Str := ((splitSpaces inner).map cleanPgTerm).filter (· ≠ [])

theorem word_not_space {inner w : Str} (hw : w ∈ splitSpaces inner) : ∀ c ∈ w, isSpace c = false :=
  fun _ hc => (mem_splitSpaces.mp ⟨w, hw, hc⟩).2

theorem clean_phraseTerms {inner w : Str} (hw : w ∈ phraseTerms inner) : Clean w := by
  obtain ⟨hmem, hne⟩ := List.mem_filter.mp hw
  obtain ⟨source, hsource, rfl⟩ := List.mem_map.mp hmem
  exact clean_cleanPgTerm (word_not_space hsource) (of_decide_eq_true hne)

theorem safe_phrase_iff {inner : Str} : (∀ w ∈ phraseTerms inner, PlainTerm w) ↔ Safe inner := by
  have hreserved : ∀ c ∈ pgUnsafe, isSpace c = false :=
    List.forall_iff_forall_mem.mp (by decide)
  constructor
  · intro hplain c hc hmem
    obtain ⟨source, hsource, hin⟩ := mem_splitSpaces.mpr ⟨hc, hreserved c hmem⟩
    have hspace := word_not_space hsource
    refine (plainTerm_cleanPgTerm hspace).mp ?_ c hin hmem
    by_cases hnil : cleanPgTerm source = []
    · rw [hnil]
      exact fun _ hmem => absurd hmem List.not_mem_nil
    · exact hplain _ (List.mem_filter.mpr ⟨List.mem_map_of_mem hsource, decide_eq_true hnil⟩)
  · intro hsafe w hw
    obtain ⟨source, hsource, rfl⟩ := List.mem_map.mp (List.mem_filter.mp hw).1
    refine (plainTerm_cleanPgTerm (word_not_space hsource)).mpr fun c hc => ?_
    exact hsafe c (mem_splitSpaces.mp ⟨source, hsource, hc⟩).1

theorem pieceOf_phrase {inner token w : Str} {ws : List Str} (hterms : phraseTerms inner = w :: ws)
    (htoken : Safe token ↔ Safe inner) :
    PieceOf token ('(' :: List.intercalate " <-> ".toList (w :: ws) ++ [')'])
      (.opening :: ([termToken w] ++
        ((links .next (ws.map fun v => [termToken v])).flatMap fun l => l.1 :: l.2) ++
          [.closing])) where
  scans := scans_phrase fun v hv => clean_phraseTerms (hterms ▸ hv)
  expression hsafe := by
    have hplain : ∀ v ∈ w :: ws, PlainTerm v := hterms ▸ safe_phrase_iff.mpr (htoken.mp hsafe)
    have hjoined : Expression False tsRole ([termToken w] ++
        (links .next (ws.map fun v => [termToken v])).flatMap fun l => l.1 :: l.2) := by
      refine Expression.joined (.operand (tsRole_termToken (hplain w (.head _)))) ?_
      intro l hl
      simp only [links, List.map_map, List.mem_map, Function.comp_apply] at hl
      obtain ⟨v, hv, rfl⟩ := hl
      exact ⟨rfl, .operand (tsRole_termToken (hplain v (.tail _ hv)))⟩
    exact .group rfl hjoined rfl
  safe q h := by
    have hbinary : ∀ l ∈ links .next (ws.map fun v => [termToken v]), tsRole l.1 = .binary := by
      intro l hl
      obtain ⟨_, -, rfl⟩ := List.mem_map.mp hl
      rfl
    rw [reach_cons, Option.bind_eq_some_iff] at h
    obtain ⟨r, hr, hrest⟩ := h
    cases hr
    rw [reach_append, Option.bind_eq_some_iff] at hrest
    obtain ⟨r, hjoined, -⟩ := hrest
    obtain ⟨⟨x, hx⟩, hlinks⟩ := reach_joined hbinary hjoined
    refine htoken.mpr (safe_phrase_iff.mp ?_)
    rw [hterms, List.forall_mem_cons]
    refine ⟨plainTerm_of_reach hx, fun v hv => ?_⟩
    obtain ⟨y, hy⟩ := hlinks (.next, [termToken v])
      (List.mem_map_of_mem (List.mem_map_of_mem hv))
    exact plainTerm_of_reach hy

theorem safe_of_cleaned_nil {s : Str} (hspace : ∀ c ∈ s, isSpace c = false)
    (h : cleanPgTerm s = []) : Safe s := by
  refine (plainTerm_cleanPgTerm hspace).mp ?_
  rw [h]
  exact fun _ hc => absurd hc List.not_mem_nil

theorem safe_concat {c : Char} (hc : c ∉ pgUnsafe) {s : Str} : Safe (s ++ [c]) ↔ Safe s := by
  simp [Safe, hc, or_imp, forall_and]

theorem safe_quoted {token : Str} (h : isQuoted token = true) :
    Safe token ↔ Safe token.tail.dropLast := by
  rw [isQuoted, Bool.and_eq_true, beq_iff_eq, beq_iff_eq] at h
  obtain ⟨text, rfl⟩ := List.head?_eq_some_iff.mp h.1
  rw [safe_cons (by decide), List.tail_cons]
  cases text with
  | nil => rfl
  | cons c text =>
    have hlast : (c :: text).getLast? = some '"' := by
      rw [← h.2, List.getLast?_cons_cons]
    conv_lhs => rw [← List.dropLast_append_getLast? _ hlast]
    exact safe_concat (by decide)

/-- A token contributes a piece, or it contributes none and has nothing unsafe in it. -/
theorem pgPiece_cases {token : Str} (h : isQuoted token = true ∨ ∀ c ∈ token, isSpace c = false) :
    (pgPiece token = none ∧ Safe token) ∨
      ∃ piece ts, pgPiece token = some piece ∧ PieceOf token piece ts := by
  by_cases hquoted : isQuoted token = true
  · have htoken := safe_quoted hquoted
    have hpiece : pgPiece token = if phraseTerms token.tail.dropLast = [] then none
        else some ('(' ::
          List.intercalate " <-> ".toList (phraseTerms token.tail.dropLast) ++ [')']) := by
      rw [pgPiece, if_pos hquoted]
      rfl
    cases hterms : phraseTerms token.tail.dropLast with
    | nil =>
      have hplain : Safe token.tail.dropLast := safe_phrase_iff.mp (by simp [hterms])
      exact .inl ⟨by rw [hpiece, if_pos hterms], htoken.mpr hplain⟩
    | cons w ws =>
      rw [hterms, if_neg (by simp)] at hpiece
      exact .inr ⟨_, _, hpiece, pieceOf_phrase hterms htoken⟩
  have hspace := h.resolve_left hquoted
  by_cases hminus : token.head? = some '-' ∧ 1 < token.length
  · obtain ⟨inner, rfl⟩ := List.head?_eq_some_iff.mp hminus.1
    have hinner : ∀ c ∈ inner, isSpace c = false := fun c hc => hspace c (.tail _ hc)
    have hpiece : pgPiece ('-' :: inner) =
        if cleanPgTerm inner = [] then none else some ('!' :: cleanPgTerm inner) := by
      rw [pgPiece, if_neg hquoted, if_pos hminus]
      rfl
    by_cases hnil : cleanPgTerm inner = []
    · exact .inl ⟨by rw [hpiece, if_pos hnil],
        (safe_cons (by decide)).mpr (safe_of_cleaned_nil hinner hnil)⟩
    · exact .inr ⟨_, _, by rw [hpiece, if_neg hnil],
        pieceOf_not (clean_cleanPgTerm hinner hnil) hinner⟩
  by_cases hstar : token.getLast? = some '*'
  · have htoken := List.dropLast_append_getLast? _ hstar
    have hstem : ∀ c ∈ token.dropLast, isSpace c = false := fun c hc =>
      hspace c (List.dropLast_subset _ hc)
    have hpiece : pgPiece token = if cleanPgTerm token.dropLast = [] then none
        else some (cleanPgTerm token.dropLast ++ ":*".toList) := by
      rw [pgPiece, if_neg hquoted, if_neg hminus, if_pos hstar]
    by_cases hnil : cleanPgTerm token.dropLast = []
    · refine .inl ⟨by rw [hpiece, if_pos hnil], ?_⟩
      rw [← htoken, safe_concat (by decide)]
      exact safe_of_cleaned_nil hstem hnil
    · have hof := pieceOf_star (clean_cleanPgTerm hstem hnil) hstem
      rw [htoken] at hof
      exact .inr ⟨_, _, by rw [hpiece, if_neg hnil], hof⟩
  · have hpiece : pgPiece token =
        if cleanPgTerm token = [] then none else some (cleanPgTerm token) := by
      rw [pgPiece, if_neg hquoted, if_neg hminus, if_neg hstar]
    by_cases hnil : cleanPgTerm token = []
    · exact .inl ⟨by rw [hpiece, if_pos hnil], safe_of_cleaned_nil hspace hnil⟩
    · exact .inr ⟨_, _, by rw [hpiece, if_neg hnil],
        pieceOf_term (clean_cleanPgTerm hspace hnil) hspace⟩

/-! ### All pieces -/

/-- The pieces of a translation, each with the operator that joins it to those before it. -/
def pgLinks (u : Unicode) : Option Str → List Str → List (Str × Str)
  | _, [] => []
  | pending, token :: rest =>
      if isOr u token then pgLinks u (some "|".toList) rest
      else
        match pgPiece token with
        | none => pgLinks u pending rest
        | some piece => (pending.getD "&".toList, piece) :: pgLinks u none rest

theorem pgPieces_eq (pieces : List Str) (pending : Option Str) (ts : List Str) :
    pgPieces u pieces pending ts =
      if pieces = [] then ((pgLinks u pending ts).flatMap fun l => [l.1, l.2]).tail
      else pieces ++ (pgLinks u pending ts).flatMap fun l => [l.1, l.2] := by
  induction ts generalizing pieces pending with
  | nil => by_cases hnil : pieces = [] <;> simp [pgPieces, pgLinks, hnil]
  | cons token ts ih =>
    by_cases hor : isOr u token = true
    · simp only [pgPieces, pgLinks, hor, if_true, ih]
    · cases hpiece : pgPiece token with
      | none => simp only [pgPieces, pgLinks, hor, hpiece, Bool.false_eq_true, if_false, ih]
      | some piece =>
        by_cases hnil : pieces = []
        · simp [pgPieces, pgLinks, hor, hpiece, hnil, ih]
        · simp [pgPieces, pgLinks, hor, hpiece, hnil, ih]

theorem Scans.blank {a b : Str} {ts us : List TsToken} (ha : Scans a ts) (hb : Scans b us) :
    Scans (a ++ ' ' :: b) (ts ++ us) := by
  intro rest hrest
  rw [List.append_assoc, ha _ (by simp), List.cons_append, tsScanFrom_blank, hb rest hrest,
    Option.map_map]
  simp [Function.comp_def]

theorem PieceOf.ne {token piece : Str} {ts : List TsToken} (h : PieceOf token piece ts) :
    piece ≠ [] := by
  rintro rfl
  have hread := h.scans [] (by simp)
  have hts : ts = [] := by simpa [tsScanFrom, endWord] using hread.symm
  subst hts
  obtain ⟨q, hq, hne⟩ := (h.expression (h.safe .before rfl)).reach (p := .before) rfl
  cases hq
  exact hne rfl

/-- How one link of a translation is read. -/
structure LinkOf (link : Str × Str) (segment : TsToken × List TsToken) : Prop where
  operator : Scans link.1 [segment.1]
  binary : tsRole segment.1 = .binary
  scans : Scans link.2 segment.2
  ne : link.2 ≠ []

/-- Every token that holds something unsafe has a link that cannot be read, and no other link
is like that. -/
theorem pgLinks_read (ts : List Str)
    (hts : ∀ token ∈ ts, isQuoted token = true ∨ ∀ c ∈ token, isSpace c = false)
    {pending : Option Str} (hpending : pending = none ∨ pending = some "|".toList) :
    ∃ segments, List.Forall₂ LinkOf (pgLinks u pending ts) segments ∧
      ((∀ token ∈ ts, isOr u token = false → Safe token) →
        ∀ s ∈ segments, Expression False tsRole s.2) ∧
      ((∀ s ∈ segments, ∃ q, reach False tsRole .before s.2 = some q) →
        ∀ token ∈ ts, isOr u token = false → Safe token) := by
  induction ts generalizing pending with
  | nil => exact ⟨[], .nil, by simp, by simp⟩
  | cons token ts ih =>
    have htail := @ih fun t ht => hts t (.tail _ ht)
    by_cases hor : isOr u token = true
    · obtain ⟨segments, hread, hgood, hbad⟩ := htail (.inr rfl)
      refine ⟨segments, by simpa [pgLinks, hor] using hread, ?_, ?_⟩
      · exact fun hsafe => hgood fun t ht => hsafe t (.tail _ ht)
      · intro hreach
        rw [List.forall_mem_cons]
        exact ⟨fun hnot => absurd (hor.symm.trans hnot) (by decide), hbad hreach⟩
    · have hnotOr : isOr u token = false := by simpa using hor
      rcases pgPiece_cases (hts token (.head _)) with ⟨hnone, hsafe⟩ | ⟨piece, us, hpiece, hof⟩
      · obtain ⟨segments, hread, hgood, hbad⟩ := htail hpending
        refine ⟨segments, by simpa [pgLinks, hor, hnone] using hread, ?_, ?_⟩
        · exact fun hall => hgood fun t ht => hall t (.tail _ ht)
        · intro hreach
          rw [List.forall_mem_cons]
          exact ⟨fun _ => hsafe, hbad hreach⟩
      · obtain ⟨segments, hread, hgood, hbad⟩ := htail (.inl rfl)
        have hoperator : ∃ op, Scans (pending.getD "&".toList) [op] ∧ tsRole op = .binary := by
          rcases hpending with rfl | rfl
          · exact ⟨.amp,
              fun rest _ => tsScanFrom_single (by decide : tsSingle '&' = some [.amp]) _ _, rfl⟩
          · exact ⟨.bar,
              fun rest _ => tsScanFrom_single (by decide : tsSingle '|' = some [.bar]) _ _, rfl⟩
        obtain ⟨op, hop, hbinary⟩ := hoperator
        refine ⟨(op, us) :: segments, ?_, ?_, ?_⟩
        · simp only [pgLinks, hnotOr, hpiece, Bool.false_eq_true, if_false]
          exact .cons ⟨hop, hbinary, hof.scans, hof.ne⟩ hread
        · intro hall
          rw [List.forall_mem_cons]
          exact ⟨hof.expression (hall token (.head _) hnotOr),
            hgood fun t ht => hall t (.tail _ ht)⟩
        · intro hreach
          rw [List.forall_mem_cons] at hreach ⊢
          obtain ⟨q, hq⟩ := hreach.1
          exact ⟨fun _ => hof.safe q hq, hbad hreach.2⟩

theorem binary_of_links {more : List (Str × Str)} {segments : List (TsToken × List TsToken)}
    (h : List.Forall₂ LinkOf more segments) : ∀ s ∈ segments, tsRole s.1 = .binary := by
  induction h with
  | nil => simp
  | cons hlink _ ih => exact List.forall_mem_cons.mpr ⟨hlink.binary, ih⟩

/-- The links behind a piece are read one after another. -/
theorem scans_links {first : Str} {ts : List TsToken} (hfirst : Scans first ts)
    {more : List (Str × Str)} {segments : List (TsToken × List TsToken)}
    (hmore : List.Forall₂ LinkOf more segments) :
    Scans (joinBlank (first :: more.flatMap fun l => [l.1, l.2]))
      (ts ++ segments.flatMap fun s => s.1 :: s.2) := by
  induction hmore generalizing first ts with
  | nil => simpa [joinBlank] using hfirst
  | @cons link segment more segments hlink _ ih =>
    have htail := hfirst.blank (hlink.operator.blank (ih hlink.scans))
    have hjoin : joinBlank (first :: ((link :: more).flatMap fun l => [l.1, l.2])) =
        first ++ ' ' ::
          (link.1 ++ ' ' :: joinBlank (link.2 :: more.flatMap fun l => [l.1, l.2])) := by
      rw [joinBlank_cons, List.flatMap_cons, List.cons_append, List.cons_append, List.nil_append,
        if_neg (by simp), joinBlank_cons, if_neg (by simp)]
    rw [hjoin]
    simpa using htail

/-! ### Whole translations -/

/-- The raw translation is nothing or can be read exactly when no token but an `OR` holds
anything unsafe. -/
theorem raw_valid_iff {ts : List Str}
    (hts : ∀ token ∈ ts, isQuoted token = true ∨ ∀ c ∈ token, isSpace c = false) :
    (joinBlank (pgPieces u [] none ts) = [] ∨ TsValid (joinBlank (pgPieces u [] none ts))) ↔
      ∀ token ∈ ts, isOr u token = false → Safe token := by
  obtain ⟨segments, hread, hgood, hbad⟩ := pgLinks_read (u := u) ts hts (.inl rfl)
  rw [pgPieces_eq, if_pos rfl]
  cases hlinks : pgLinks u none ts with
  | nil =>
    rw [hlinks] at hread
    cases hread
    simpa [joinBlank] using hbad (by simp)
  | cons link more =>
    rw [hlinks] at hread
    obtain ⟨segment, segments, hlink, hmore, rfl⟩ := List.forall₂_cons_left_iff.mp hread
    have hscan := scans_links hlink.scans hmore [] (by simp)
    have hne : joinBlank (link.2 :: more.flatMap fun l => [l.1, l.2]) ≠ [] := by
      rw [joinBlank_cons]
      simp [hlink.ne]
    have hbinary := binary_of_links hmore
    rw [List.append_nil] at hscan
    simp only [List.flatMap_cons, List.cons_append, List.nil_append, List.tail_cons, hne,
      false_or]
    constructor
    · intro h
      obtain ⟨us, hus, hexpr⟩ := h
      rw [hscan, tsScanFrom] at hus
      simp only [endWord, if_true, Option.map_some, List.append_nil, Option.some.injEq] at hus
      rw [← hus] at hexpr
      obtain ⟨q, hq, -⟩ := hexpr.reach (p := .before) rfl
      obtain ⟨hfirst, hsegments⟩ := reach_joined hbinary hq
      exact hbad (List.forall_mem_cons.mpr ⟨hfirst, hsegments⟩)
    · intro hsafe
      have hexpr := List.forall_mem_cons.mp (hgood hsafe)
      refine ⟨_, hscan, ?_⟩
      simp only [endWord, if_true, List.append_nil]
      exact hexpr.1.joined fun s hs => ⟨hbinary s hs, hexpr.2 s hs⟩

/-! ### Tokens and their query -/

theorem mem_dropWhile_of_not {p : Char → Bool} {s : Str} {c : Char} (hc : c ∈ s)
    (hp : p c = false) : c ∈ s.dropWhile p := by
  rw [← List.takeWhile_append_dropWhile (p := p) (l := s), List.mem_append] at hc
  refine hc.resolve_left fun hmem => ?_
  have htrue := List.mem_takeWhile_imp hmem
  rw [hp] at htrue
  cases htrue

theorem mem_strip {s : Str} {c : Char} (hc : c ∈ s) (hspace : isSpace c = false) : c ∈ strip s := by
  have hleft : c ∈ lstrip s := mem_dropWhile_of_not hc hspace
  exact List.mem_reverse.mpr (mem_dropWhile_of_not (List.mem_reverse.mpr hleft) hspace)

theorem mem_of_mem_strip {s : Str} {c : Char} (hc : c ∈ strip s) : c ∈ s := by
  have hright := (List.dropWhile_sublist _).subset (List.mem_reverse.mp hc)
  exact (List.dropWhile_sublist _).subset (List.mem_reverse.mp hright)

theorem tokenAt_shape {s token : Str} (h : tokenAt s = some token) :
    isQuoted token = true ∨ ∀ c ∈ token, isSpace c = false := by
  cases s with
  | nil => cases h
  | cons c cs =>
    simp only [tokenAt] at h
    split at h
    · cases h
      exact .inl (by simp [isQuoted, List.getLast?_cons])
    · split at h
      · cases h
      · rename_i hspace
        cases h
        right
        intro d hd
        rcases List.mem_cons.mp hd with rfl | hd
        · simpa using hspace
        · simpa using List.mem_takeWhile_imp hd

/-- A token holds characters of its text only, and is quoted or without white space. -/
theorem tokensFrom_shape {s token : Str} (h : token ∈ tokensFrom 0 s) :
    (∀ c ∈ token, c ∈ s) ∧ (isQuoted token = true ∨ ∀ c ∈ token, isSpace c = false) := by
  induction hlength : s.length using Nat.strong_induction_on generalizing s with
  | _ n ih =>
    subst hlength
    cases s with
    | nil => cases h
    | cons d s =>
      cases hat : tokenAt (d :: s) with
      | none =>
        rw [tokensFrom_cons_none hat] at h
        have hrest := ih s.length (by simp) h rfl
        exact ⟨fun c hc => .tail _ (hrest.1 c hc), hrest.2⟩
      | some first =>
        obtain ⟨hne, htake⟩ := tokenAt_prefix hat
        rw [tokensFrom_cons_some hat] at h
        rcases List.mem_cons.mp h with rfl | h
        · refine ⟨fun c hc => ?_, tokenAt_shape hat⟩
          rw [htake] at hc
          exact List.mem_of_mem_take hc
        · have hshorter : ((d :: s).drop first.length).length < (d :: s).length := by
            have hpos : 0 < first.length := List.length_pos_of_ne_nil hne
            simp only [List.length_drop, List.length_cons]
            omega
          have hrest := ih _ hshorter h rfl
          exact ⟨fun c hc => List.mem_of_mem_drop (hrest.1 c hc), hrest.2⟩

theorem isOr_of_reserved {token : Str} {c : Char} (hc : c ∈ token) (hmem : c ∈ pgUnsafe) :
    isOr u token = false := by
  have hascii : ∀ d ∈ pgUnsafe, d.toNat < 128 ∧ d.toUpper = d ∧ d ∉ "OR".toList :=
    List.forall_iff_forall_mem.mp (by decide)
  obtain ⟨hlt, hupper, hnot⟩ := hascii c hmem
  rw [isOr, beq_eq_false_iff_ne]
  intro heq
  have hin : c ∈ u.upper token := by
    rw [Unicode.upper, List.mem_flatMap]
    exact ⟨c, hc, by simp [u.upperChar_ascii c hlt, hupper]⟩
  rw [heq] at hin
  exact hnot hin

theorem safe_tokens_iff {query : Str} :
    (∀ token ∈ tokens query, isOr u token = false → Safe token) ↔ Safe query := by
  have hspace : ∀ c ∈ pgUnsafe, isSpace c = false :=
    List.forall_iff_forall_mem.mp (by decide)
  constructor
  · intro h c hc hmem
    obtain ⟨token, htoken, hin⟩ := mem_tokens (mem_strip hc (hspace c hmem)) (hspace c hmem)
    exact h token htoken (isOr_of_reserved hin hmem) c hin hmem
  · intro h token htoken _ c hc
    exact h c (mem_of_mem_strip ((tokensFrom_shape htoken).1 c hc))

/-! ### Queries -/

/-- Postgres is asked in the raw syntax: the query is not blank and not one quoted phrase, and
it has an operator or a quote. -/
def IsRaw (u : Unicode) (query : Str) : Prop :=
  strip query ≠ [] ∧ ¬(∃ token, tokens query = [token] ∧ isQuoted token = true) ∧
    (hasOperators u (tokens query) = true ∨ ∃ token ∈ tokens query, '"' ∈ token)

theorem toPostgres_raw {query : Str} (h : IsRaw u query) :
    toPostgres u query = (joinBlank (pgPieces u [] none (tokens query)), .raw) := by
  obtain ⟨hquery, hphrase, hraw⟩ := h
  rw [toPostgres, if_neg hquery]
  cases htokens : tokens query with
  | nil => simp [htokens, hasOperators] at hraw
  | cons token rest =>
    rw [htokens] at hraw hphrase
    cases rest with
    | nil =>
      have hquoted : ¬isQuoted token = true := fun hq => hphrase ⟨token, rfl, hq⟩
      have hnot : ¬(hasOperators u [token] = false ∧ '"' ∉ token) := by
        rintro ⟨hop, hquote⟩
        rcases hraw with hraw | ⟨t, ht, hmem⟩
        · rw [hop] at hraw
          cases hraw
        · rw [List.mem_singleton.mp ht] at hmem
          exact hquote hmem
      simp only [hquoted, hnot, if_false, Bool.false_eq_true]
    | cons next rest =>
      have hnot : ¬(hasOperators u (token :: next :: rest) = false ∧
          ((token :: next :: rest).all fun t => decide ('"' ∉ t)) = true) := by
        rintro ⟨hop, hquote⟩
        rcases hraw with hraw | ⟨t, ht, hmem⟩
        · rw [hop] at hraw
          cases hraw
        · exact of_decide_eq_true (List.all_eq_true.mp hquote t ht) hmem
      simp only [hnot, if_false]

/-- What asks for no operator and no quote is not raw. -/
theorem plain_of_not_raw {query : Str} (h : ¬IsRaw u query) (hquery : strip query ≠ [])
    (hphrase : ¬∃ token, tokens query = [token] ∧ isQuoted token = true) :
    hasOperators u (tokens query) = false ∧ ∀ token ∈ tokens query, '"' ∉ token := by
  constructor
  · rw [← Bool.not_eq_true]
    exact fun hop => h ⟨hquery, hphrase, .inl hop⟩
  · exact fun token htoken hmem => h ⟨hquery, hphrase, .inr ⟨token, htoken, hmem⟩⟩

theorem toPostgres_not_raw {query : Str} (h : ¬IsRaw u query) :
    (toPostgres u query).1 = [] ∨ (toPostgres u query).2 ≠ .raw := by
  by_cases hquery : strip query = []
  · exact .inl (by rw [toPostgres, if_pos hquery])
  right
  rw [toPostgres, if_neg hquery]
  by_cases hphrase : ∃ token, tokens query = [token] ∧ isQuoted token = true
  · obtain ⟨token, htokens, hquoted⟩ := hphrase
    simp only [htokens, hquoted, if_true]
    decide
  obtain ⟨hop, hquote⟩ := plain_of_not_raw h hquery hphrase
  cases htokens : tokens query with
  | nil => exact absurd htokens (tokens_ne hquery)
  | cons token rest =>
    rw [htokens] at hop hquote hphrase
    cases rest with
    | nil =>
      have hquoted : ¬isQuoted token = true := fun hq => hphrase ⟨token, rfl, hq⟩
      simp only [hquoted, hop, hquote token (.head _), not_false_eq_true, and_self, if_true,
        if_false, Bool.false_eq_true]
      decide
    | cons next rest =>
      have hall : ((token :: next :: rest).all fun t => decide ('"' ∉ t)) = true :=
        List.all_eq_true.mpr fun t ht => decide_eq_true (hquote t ht)
      simp only [hop, hall, and_self, if_true]
      decide

/-- The translation for FTS5 is nothing or an expression. -/
def FtsOk (u : Unicode) (query : Str) : Prop := toFts5 u query = [] ∨ FtsValid (toFts5 u query)

/-- The translation for Postgres is nothing or, where it is raw, an expression. -/
def PgOk (u : Unicode) (query : Str) : Prop :=
  (toPostgres u query).1 = [] ∨ ((toPostgres u query).2 = .raw → TsValid (toPostgres u query).1)

theorem pgOk_iff (u : Unicode) (query : Str) : PgOk u query ↔ (IsRaw u query → Safe query) := by
  by_cases hraw : IsRaw u query
  · have hshape : ∀ token ∈ tokens query, isQuoted token = true ∨ ∀ c ∈ token, isSpace c = false :=
      fun token htoken => (tokensFrom_shape htoken).2
    have hvalid := raw_valid_iff (u := u) hshape
    rw [safe_tokens_iff] at hvalid
    simpa [PgOk, toPostgres_raw hraw, hraw] using hvalid
  · have hnot := toPostgres_not_raw hraw
    simp only [hraw, false_implies, iff_true]
    exact hnot.imp_right fun htype htype' => absurd htype' htype

/-- Nothing is asked of FTS5, or what is asked is ready for it. -/
def FtsCondition (u : Unicode) (query : Str) : Prop := strip query = [] ∨ FtsReady u query

theorem ftsOk_of_condition {query : Str} (h : FtsCondition u query) : FtsOk u query := by
  by_cases hquery : strip query = []
  · exact .inl (by rw [toFts5, if_pos hquery])
  · exact .inr (toFts5_valid hquery (h.resolve_left hquery))

theorem condition_of_ftsOk {query : Str} (h : FtsOk u query) :
    FtsCondition u query ∨ 2 ≤ (tokens query).countP (leavesOpen u) := by
  by_cases hquery : strip query = []
  · exact .inl (.inl hquery)
  · have hvalid := h.resolve_left (toFts5_ne hquery)
    exact (ready_of_valid hquery hvalid).imp_left .inr

/-- A query translates to valid syntax for both engines if what FTS5 gets as it was typed is an
expression, with the operators in their places, and the raw translation for Postgres is of
safe characters only. Otherwise it does not, unless two of the tokens that FTS5 gets as they
were typed close each other's quotes. -/
theorem translates_iff (u : Unicode) (query : Str) :
    (FtsCondition u query ∧ (IsRaw u query → Safe query) → FtsOk u query ∧ PgOk u query) ∧
      (FtsOk u query ∧ PgOk u query →
        (IsRaw u query → Safe query) ∧
          (FtsCondition u query ∨ 2 ≤ (tokens query).countP (leavesOpen u))) := by
  rw [pgOk_iff]
  constructor
  · intro h
    exact ⟨ftsOk_of_condition h.1, h.2⟩
  · intro h
    exact ⟨h.2, condition_of_ftsOk h.1⟩

/-- `-slow` asks for `NOT "slow"`. -/
theorem exclusion_alone_invalid :
    ¬(FtsOk Unicode.ascii "-slow".toList ∧ PgOk Unicode.ascii "-slow".toList) := by
  intro h
  have htext : toFts5 Unicode.ascii "-slow".toList = "NOT \"slow\"".toList := by decide
  rcases h.1 with hnil | hvalid
  · rw [htext] at hnil
    cases hnil
  · rw [htext] at hvalid
    obtain ⟨ts, q, hts, hreach, hne⟩ := ftsValid_iff.mp hvalid
    have hread : ftsLex "NOT \"slow\"".toList = some [.not, .str "slow".toList] := by decide
    rw [hread] at hts
    cases hts
    cases hreach

/-- `api -slow` asks for `"api" NOT "slow"` and `api & !slow`. -/
theorem exclusion_behind_valid :
    FtsOk Unicode.ascii "api -slow".toList ∧ PgOk Unicode.ascii "api -slow".toList := by
  have htokens : tokens "api -slow".toList = ["api".toList, "-slow".toList] := by decide
  have hsound : ∀ token ∈ ["api".toList, "-slow".toList],
      isOr Unicode.ascii token = false → Sound Unicode.ascii token := by
    intro token htoken _
    simp only [List.mem_cons, List.not_mem_nil, or_false] at htoken
    rcases htoken with rfl | rfl <;>
    · exact ⟨fun h => absurd h (by decide), fun h => absurd h (by decide)⟩
  exact (translates_iff Unicode.ascii "api -slow".toList).1
    ⟨.inr ⟨htokens ▸ hsound, by decide⟩, fun _ => List.forall_iff_forall_mem.mp (by decide)⟩

end CwStation.QueryParser
