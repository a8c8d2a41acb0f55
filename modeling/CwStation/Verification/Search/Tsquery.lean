import CwStation.Verification.Search.Queries

/-! # What Postgres makes of a query

Whichever of the three functions reads the translation, a document is found if it holds what
some group asks for and none of the words that the group excludes. -/

namespace CwStation.QueryParser

open TextSearch Operators

variable {u : Unicode}

/-! ## The pieces -/

/-- What is left of a word once operators are removed: the word. -/
theorem cleanPgTerm_append {s t : Str} (hs : ∀ c ∈ s, isAlnum u c = true)
    (ht : ∀ c ∈ t, c ∈ ['&', '|', '!', '(', ')', ':', '"', '*']) : cleanPgTerm (s ++ t) = s := by
  have hfilter : (s ++ t).filter (fun c => c ∉ ['&', '|', '!', '(', ')', ':', '"', '*']) = s := by
    have hkeep : s.filter (fun c => c ∉ ['&', '|', '!', '(', ')', ':', '"', '*']) = s := by
      refine List.filter_eq_self.mpr fun c hc => decide_eq_true fun hmem => ?_
      have hascii : ∀ d ∈ ['&', '|', '!', '(', ')', ':', '"', '*'],
          d.toNat < 128 ∧ d.isAlphanum = false := by simp
      exact ne_of_isAlnum (hs c hc) (hascii c hmem).1 (hascii c hmem).2 rfl
    have hdrop : t.filter (fun c => c ∉ ['&', '|', '!', '(', ')', ':', '"', '*']) = [] :=
      List.filter_eq_nil_iff.mpr fun c hc => by
        rw [decide_eq_true_eq]
        exact not_not_intro (ht c hc)
    rw [List.filter_append, hkeep, hdrop, List.append_nil]
  have hstrip : strip s = s := by
    have hspace : ∀ c ∈ s, isSpace c = false := fun c hc => isSpace_of_isAlnum (hs c hc)
    have hfix : ∀ r : Str, (∀ c ∈ r, isSpace c = false) → r.dropWhile isSpace = r := by
      intro r hr
      cases r with
      | nil => rfl
      | cons c r => simp [hr c (.head _)]
    rw [strip, lstrip, hfix s hspace, rstrip,
      hfix s.reverse fun c hc => hspace c (List.mem_reverse.mp hc), List.reverse_reverse]
  rw [cleanPgTerm, hfilter, hstrip]

theorem cleanPgTerm_of_isAlnum {s : Str} (hs : ∀ c ∈ s, isAlnum u c = true) : cleanPgTerm s = s := by
  have h := cleanPgTerm_append hs (t := []) (by simp)
  rwa [List.append_nil] at h

/-- What an item contributes. -/
def Item.pgPiece : Item u → Str
  | .word w _ => w.text
  | .starts w => w.text ++ ":*".toList
  | .phrase q => '(' :: List.intercalate " <-> ".toList (splitSpaces q.text) ++ [')']
  | .without w | .withoutStarts w => '!' :: w.text

theorem pgPiece_minus {inner cleaned : Str} (hinner : inner ≠ []) (hclean : cleanPgTerm inner = cleaned)
    (hne : cleaned ≠ []) : pgPiece ('-' :: inner) = some ('!' :: cleaned) := by
  simp [pgPiece, isQuoted, hclean, hne, List.length_pos_of_ne_nil hinner]

theorem pgPiece_token (i : Item u) : pgPiece i.token = some i.pgPiece := by
  cases i with
  | word w plain =>
    have hquoted : isQuoted w.text = false := by
      simp [isQuoted, w.head_ne (c := '"') (by decide) (by decide)]
    simp [pgPiece, Item.token, Item.pgPiece, hquoted, cleanPgTerm_of_isAlnum w.alnum, w.ne,
      w.head_ne (c := '-') (by decide) (by decide), w.getLast_ne (c := '*') (by decide) (by decide)]
  | starts w =>
    have hquoted : isQuoted (w.text ++ ['*']) = false := by simp [isQuoted]
    have hhead : (w.text ++ ['*']).head? ≠ some '-' := by
      rw [List.head?_append_of_ne_nil _ w.ne]
      exact w.head_ne (by decide) (by decide)
    rw [show (Item.starts w).token = w.text ++ ['*'] from rfl, pgPiece,
      if_neg (by simp [hquoted]), if_neg fun h => hhead h.1, if_pos (by simp)]
    simp [Item.pgPiece, cleanPgTerm_of_isAlnum w.alnum, w.ne]
  | phrase q =>
    have hquoted : isQuoted ('"' :: q.text ++ ['"']) = true := by
      simp [isQuoted, List.getLast?_cons]
    have hinner : ('"' :: q.text ++ ['"']).tail.dropLast = q.text := by simp
    have hwords : ((splitSpaces q.text).map cleanPgTerm).filter (· ≠ []) = splitSpaces q.text := by
      have hmap : (splitSpaces q.text).map cleanPgTerm = splitSpaces q.text := by
        conv_rhs => rw [← List.map_id (splitSpaces q.text)]
        refine List.map_congr_left fun w hw => ?_
        exact cleanPgTerm_of_isAlnum (isAlnum_of_splitSpaces q.chars hw).2
      rw [hmap]
      exact List.filter_eq_self.mpr fun w hw =>
        decide_eq_true (isAlnum_of_splitSpaces q.chars hw).1
    simp only [pgPiece, Item.token, Item.pgPiece, hquoted, hinner, hwords, q.ne, if_true, if_false]
  | without w => exact pgPiece_minus w.ne (cleanPgTerm_of_isAlnum w.alnum) w.ne
  | withoutStarts w => exact pgPiece_minus (by simp) (cleanPgTerm_append w.alnum (by simp)) w.ne

/-- The pieces behind the first one of a group. -/
def andPieces (g : List (Item u)) : List Str := g.flatMap fun i => ["&".toList, i.pgPiece]

def groupPieces : List (Item u) → List Str
  | [] => []
  | i :: g => i.pgPiece :: andPieces g

def Query.pieces (q : Query u) : List Str :=
  groupPieces q.first ++ q.later.flatMap fun g => "|".toList :: groupPieces g.2

theorem pgPieces_and {pieces : List Str} (hne : pieces ≠ []) (g : List (Item u)) (rest : List Str) :
    pgPieces u pieces none (g.map Item.token ++ rest) =
      pgPieces u (pieces ++ andPieces g) none rest := by
  induction g generalizing pieces with
  | nil => simp [andPieces]
  | cons i g ih =>
    have hmore : pieces ++ ["&".toList, i.pgPiece] ≠ [] := by simp
    have hstep := ih hmore
    have hpieces : pieces ++ andPieces (i :: g) =
        pieces ++ ["&".toList, i.pgPiece] ++ andPieces g := by simp [andPieces]
    rw [hpieces, ← hstep]
    simp [pgPieces, isOr_token, pgPiece_token, hne]

theorem pgPieces_or {pieces : List Str} (hne : pieces ≠ []) (o : OrWord u) {g : List (Item u)}
    (hg : g ≠ []) (rest : List Str) :
    pgPieces u pieces none (o.text :: (g.map Item.token ++ rest)) =
      pgPieces u (pieces ++ "|".toList :: groupPieces g) none rest := by
  cases g with
  | nil => exact absurd rfl hg
  | cons i g =>
    have hmore : pieces ++ ["|".toList, i.pgPiece] ≠ [] := by simp
    have hand := pgPieces_and hmore g rest
    have hpieces : pieces ++ "|".toList :: groupPieces (i :: g) =
        pieces ++ ["|".toList, i.pgPiece] ++ andPieces g := by simp [groupPieces]
    rw [hpieces, ← hand]
    simp [pgPieces, o.isOr, isOr_token, pgPiece_token, hne]

theorem Query.group_ne {q : Query u} {g : List (Item u)} (hg : g ∈ q.groups) : g ≠ [] := by
  rintro rfl
  obtain ⟨i, hi, -⟩ := q.asks [] hg
  cases hi

/-- The loop of `to_postgres` on a query. -/
theorem pgPieces_tokens (q : Query u) : pgPieces u [] none (tokens q.text) = q.pieces := by
  have hlater : ∀ (later : List (OrWord u × List (Item u))) (pieces : List Str), pieces ≠ [] →
      (∀ l ∈ later, l.2 ≠ []) →
      pgPieces u pieces none (later.flatMap fun g => g.1.text :: g.2.map Item.token) =
        pieces ++ later.flatMap fun g => "|".toList :: groupPieces g.2 := by
    intro later
    induction later with
    | nil => intro pieces _ _; simp [pgPieces]
    | cons l later ih =>
      intro pieces hne hl
      rw [List.flatMap_cons, List.cons_append, pgPieces_or hne l.1 (hl l (.head _)),
        ih _ (by simp) fun l' hl' => hl l' (.tail _ hl')]
      simp
  have hgroups : ∀ l ∈ q.later, l.2 ≠ [] := fun l hl =>
    q.group_ne (.tail _ (List.mem_map.mpr ⟨l, hl, rfl⟩))
  have hfirst : q.first ≠ [] := q.group_ne (.head _)
  rw [q.spelled, Query.pieces]
  cases hg : q.first with
  | nil => exact absurd hg hfirst
  | cons i g =>
    have hstart : pgPieces u [] none ((i :: g).map Item.token ++
        q.later.flatMap fun g => g.1.text :: g.2.map Item.token) =
        pgPieces u [i.pgPiece] none (g.map Item.token ++
          q.later.flatMap fun g => g.1.text :: g.2.map Item.token) := by
      simp [pgPieces, isOr_token, pgPiece_token]
    rw [hstart, pgPieces_and (by simp), hlater q.later _ (by simp) hgroups]
    simp [groupPieces]

/-! ## Reading the characters -/

/-- The tokens `ts` are read from `part`, if it ends where a word would. -/
def LexesTs (u : Unicode) (part : Str) (ts : List TsToken) : Prop :=
  ∀ rest : Str, (∀ c ∈ rest.head?, isAlnum u c = false) →
    tsLexFrom u [] (part ++ rest) = (tsLexFrom u [] rest).map (ts ++ ·)

section equations

variable (word cs : Str)

theorem tsLexFrom_nil : tsLexFrom u word [] = some (tsWord word) := rfl

theorem tsLexFrom_next : tsLexFrom u word ('<' :: '-' :: '>' :: cs) =
    (tsLexFrom u [] cs).map fun ts => tsWord word ++ .next :: ts := rfl

theorem tsLexFrom_star : tsLexFrom u word (':' :: '*' :: cs) =
    (tsLexFrom u [] cs).map fun ts => tsWord word ++ .star :: ts := rfl

theorem tsLexFrom_other {c : Char} (hnext : ∀ ds, c = '<' → cs = '-' :: '>' :: ds → False)
    (hstar : ∀ ds, c = ':' → cs = '*' :: ds → False) : tsLexFrom u word (c :: cs) =
      if isAlnum u c then tsLexFrom u (word ++ [c]) cs
      else (tsSingle c).bind fun ts =>
        (tsLexFrom u [] cs).map fun more => tsWord word ++ ts ++ more := by
  rw [tsLexFrom.eq_4 u word c cs hnext hstar]
  cases tsSingle c <;> rfl

end equations

theorem isAlnum_special {c : Char}
    (hc : c ∈ [' ', '<', ':', '!', '&', '|', '(', ')', '*', '-', '>']) : isAlnum u c = false := by
  have hascii : ∀ d ∈ [' ', '<', ':', '!', '&', '|', '(', ')', '*', '-', '>'],
      d.toNat < 128 ∧ d.isAlphanum = false := by simp
  exact isAlnum_ascii (hascii c hc).1 (hascii c hc).2

theorem tsLexFrom_alnum {c : Char} (hc : isAlnum u c = true) (word rest : Str) :
    tsLexFrom u word (c :: rest) = tsLexFrom u (word ++ [c]) rest := by
  have hlt : c ≠ '<' := ne_of_isAlnum hc (by decide) (by decide)
  have hcolon : c ≠ ':' := ne_of_isAlnum hc (by decide) (by decide)
  rw [tsLexFrom_other word rest (fun _ h _ => hlt h) (fun _ h _ => hcolon h), if_pos hc]

theorem tsLexFrom_word {w : Str} (hw : ∀ c ∈ w, isAlnum u c = true) (word rest : Str) :
    tsLexFrom u word (w ++ rest) = tsLexFrom u (word ++ w) rest := by
  induction w generalizing word with
  | nil => simp
  | cons c w ih =>
    rw [List.cons_append, tsLexFrom_alnum (hw c (.head _)), ih fun d hd => hw d (.tail _ hd)]
    simp

/-- A word ends in front of what is no letter and no digit. -/
theorem tsLexFrom_flush (word rest : Str) (hrest : ∀ c ∈ rest.head?, isAlnum u c = false) :
    tsLexFrom u word rest = (tsLexFrom u [] rest).map (tsWord word ++ ·) := by
  cases rest with
  | nil => simp [tsLexFrom_nil, tsWord]
  | cons c rest =>
    have hc : isAlnum u c = false := hrest c rfl
    by_cases hnext : c = '<' ∧ ∃ cs, rest = '-' :: '>' :: cs
    · obtain ⟨rfl, cs, rfl⟩ := hnext
      cases h : tsLexFrom u [] cs <;> simp [tsLexFrom_next, tsWord, h]
    · by_cases hstar : c = ':' ∧ ∃ cs, rest = '*' :: cs
      · obtain ⟨rfl, cs, rfl⟩ := hstar
        cases h : tsLexFrom u [] cs <;> simp [tsLexFrom_star, tsWord, h]
      · have hother : ∀ w : Str, tsLexFrom u w (c :: rest) = (tsSingle c).bind fun ts =>
            (tsLexFrom u [] rest).map fun more => tsWord w ++ ts ++ more := by
          intro w
          rw [tsLexFrom_other w rest (fun cs h h' => hnext ⟨h, cs, h'⟩)
            fun cs h h' => hstar ⟨h, cs, h'⟩, if_neg (by simp [hc])]
        rw [hother word, hother []]
        cases tsSingle c with
        | none => rfl
        | some ts => cases h : tsLexFrom u [] rest <;> simp [tsWord]

theorem lexesTs_word {w : Str} (hne : w ≠ []) (hw : ∀ c ∈ w, isAlnum u c = true) :
    LexesTs u w [.word w] := by
  intro rest hrest
  rw [tsLexFrom_word hw, List.nil_append, tsLexFrom_flush w rest hrest, tsWord, if_neg hne]

/-- A character that is a token of its own. -/
theorem tsLexFrom_single {c : Char} {ts : List TsToken}
    (hc : c ∈ [' ', '!', '&', '|', '(', ')']) (hts : tsSingle c = some ts) (rest : Str) :
    tsLexFrom u [] (c :: rest) = (tsLexFrom u [] rest).map (ts ++ ·) := by
  have hsub : ∀ d ∈ [' ', '!', '&', '|', '(', ')'],
      d ∈ [' ', '<', ':', '!', '&', '|', '(', ')', '*', '-', '>'] ∧ d ≠ '<' ∧ d ≠ ':' := by simp
  obtain ⟨hspecial, hlt, hcolon⟩ := hsub c hc
  rw [tsLexFrom_other [] rest (fun _ h _ => hlt h) (fun _ h _ => hcolon h),
    if_neg (by simp [isAlnum_special hspecial]), hts]
  simp [tsWord]

theorem LexesTs.cons {c : Char} {ts us : List TsToken} {part : Str} (h : LexesTs u part us)
    (hc : c ∈ [' ', '!', '&', '|', '(', ')']) (hts : tsSingle c = some ts) :
    LexesTs u (c :: part) (ts ++ us) := by
  intro rest hrest
  rw [List.cons_append, tsLexFrom_single hc hts, h rest hrest, Option.map_map]
  simp [Function.comp_def]

theorem lexesTs_nil : LexesTs u [] [] := by
  intro rest _
  cases h : tsLexFrom u [] rest <;> simp [h]

theorem LexesTs.append {a b : Str} {ts us : List TsToken} (ha : LexesTs u a ts)
    (hb : LexesTs u b us) (hhead : ∀ c ∈ b.head?, isAlnum u c = false) :
    LexesTs u (a ++ b) (ts ++ us) := by
  intro rest hrest
  have hmid : ∀ c ∈ (b ++ rest).head?, isAlnum u c = false := by
    intro c hc
    cases b with
    | nil => exact hrest c hc
    | cons d b => exact hhead c hc
  rw [List.append_assoc, ha _ hmid, hb rest hrest, Option.map_map]
  simp [Function.comp_def]

theorem LexesTs.blank {a b : Str} {ts us : List TsToken} (ha : LexesTs u a ts)
    (hb : LexesTs u b us) : LexesTs u (a ++ ' ' :: b) (ts ++ us) := by
  refine ha.append (hb.cons (by simp) (rfl : tsSingle ' ' = some [])) fun c hc => ?_
  rw [List.head?_cons, Option.mem_some_iff] at hc
  exact hc ▸ isAlnum_special (by simp)

theorem lexesTs_star {w : Str} (hne : w ≠ []) (hw : ∀ c ∈ w, isAlnum u c = true) :
    LexesTs u (w ++ ":*".toList) [.word w, .star] := by
  have hstar : LexesTs u ":*".toList [.star] := by
    intro rest _
    exact tsLexFrom_star [] rest
  refine (lexesTs_word hne hw).append hstar fun c hc => ?_
  have hc' : ':' = c := by simpa using hc
  exact hc' ▸ isAlnum_special (by simp)

theorem lexesTs_next {part : Str} {ts : List TsToken} (h : LexesTs u part ts) :
    LexesTs u (" <-> ".toList ++ part) (.next :: ts) := by
  have hnext : LexesTs u "<->".toList [.next] := by
    intro rest _
    exact tsLexFrom_next [] rest
  have hblank := (hnext.blank h).cons (by simp) (rfl : tsSingle ' ' = some [])
  simpa using hblank

/-- The words of a phrase. -/
theorem lexesTs_phrase {w : Str} {ws : List Str}
    (hws : ∀ v ∈ w :: ws, v ≠ [] ∧ ∀ c ∈ v, isAlnum u c = true) :
    LexesTs u (List.intercalate " <-> ".toList (w :: ws))
      (.word w :: ws.flatMap fun v => [.next, .word v]) := by
  induction ws generalizing w with
  | nil => simpa [List.intercalate] using lexesTs_word (hws w (.head _)).1 (hws w (.head _)).2
  | cons v ws ih =>
    have hword := lexesTs_word (hws w (.head _)).1 (hws w (.head _)).2
    have htail := lexesTs_next (ih fun x hx => hws x (.tail _ hx))
    have htext : List.intercalate " <-> ".toList (w :: v :: ws) =
        w ++ (" <-> ".toList ++ List.intercalate " <-> ".toList (v :: ws)) := by
      simp [List.intercalate]
    rw [htext]
    refine hword.append htail fun c hc => ?_
    have hc' : ' ' = c := by simpa using hc
    exact hc' ▸ isAlnum_special (by simp)

/-! ## The tokens of the translation -/

def Item.tsTokens : Item u → List TsToken
  | .word w _ => [.word w.text]
  | .starts w => [.word w.text, .star]
  | .phrase q =>
      .opening :: ((splitSpaces q.text).head?.toList.map .word ++
        (splitSpaces q.text).tail.flatMap fun v => [.next, .word v]) ++ [.closing]
  | .without w | .withoutStarts w => [.bang, .word w.text]

theorem lexesTs_pgPiece (i : Item u) : LexesTs u i.pgPiece i.tsTokens := by
  cases i with
  | word w plain => exact lexesTs_word w.ne w.alnum
  | starts w => exact lexesTs_star w.ne w.alnum
  | without w | withoutStarts w =>
    exact (lexesTs_word w.ne w.alnum).cons (by simp) (rfl : tsSingle '!' = some [.bang])
  | phrase q =>
    have hclose : LexesTs u [')'] [.closing] :=
      lexesTs_nil.cons (by simp) (rfl : tsSingle ')' = some [.closing])
    have hwords : ∀ v ∈ splitSpaces q.text, v ≠ [] ∧ ∀ c ∈ v, isAlnum u c = true :=
      fun v hv => isAlnum_of_splitSpaces q.chars hv
    rw [Item.pgPiece, Item.tsTokens]
    cases hsplit : splitSpaces q.text with
    | nil => exact absurd hsplit q.ne
    | cons w ws =>
      rw [hsplit] at hwords
      have hbody := (lexesTs_phrase hwords).append hclose fun c hc => by
        have hc' : ')' = c := by simpa using hc
        exact hc' ▸ isAlnum_special (by simp)
      exact hbody.cons (by simp) (rfl : tsSingle '(' = some [.opening])

def andTokens (g : List (Item u)) : List TsToken := g.flatMap fun i => .amp :: i.tsTokens

def groupTsTokens : List (Item u) → List TsToken
  | [] => []
  | i :: g => i.tsTokens ++ andTokens g

def Query.tsTokens (q : Query u) : List TsToken :=
  groupTsTokens q.first ++ q.later.flatMap fun g => .bar :: groupTsTokens g.2

theorem lexesTs_join {parts : List (Str × List TsToken)} (h : ∀ p ∈ parts, LexesTs u p.1 p.2) :
    LexesTs u (joinBlank (parts.map (·.1))) (parts.flatMap (·.2)) := by
  induction parts with
  | nil => simpa [joinBlank, List.intercalate] using lexesTs_nil
  | cons p parts ih =>
    have htail := ih fun q hq => h q (.tail _ hq)
    cases parts with
    | nil => simpa [joinBlank, List.intercalate] using h p (.head _)
    | cons q parts =>
      have hjoin : joinBlank ((p :: q :: parts).map (·.1)) =
          p.1 ++ ' ' :: joinBlank ((q :: parts).map (·.1)) := by
        rw [joinBlank, List.map_cons, intercalate_cons]
        simp [joinBlank]
      rw [hjoin, List.flatMap_cons]
      exact (h p (.head _)).blank htail

theorem tsLex_pieces (q : Query u) : tsLex u (joinBlank q.pieces) = some q.tsTokens := by
  let group : List (Item u) → List (Str × List TsToken) := fun g =>
    match g with
    | [] => []
    | i :: g => (i.pgPiece, i.tsTokens) ::
        g.flatMap fun j => [("&".toList, [.amp]), (j.pgPiece, j.tsTokens)]
  let parts : List (Str × List TsToken) :=
    group q.first ++ q.later.flatMap fun l => ("|".toList, [.bar]) :: group l.2
  have hgroup : ∀ g, ∀ p ∈ group g, LexesTs u p.1 p.2 := by
    intro g p hp
    cases g with
    | nil => cases hp
    | cons i g =>
      rcases List.mem_cons.mp hp with rfl | hp
      · exact lexesTs_pgPiece i
      · obtain ⟨j, -, hp⟩ := List.mem_flatMap.mp hp
        rcases List.mem_cons.mp hp with rfl | hp
        · exact lexesTs_nil.cons (by simp) (rfl : tsSingle '&' = some [.amp])
        · rw [List.mem_singleton.mp hp]
          exact lexesTs_pgPiece j
  have hlexes : ∀ p ∈ parts, LexesTs u p.1 p.2 := by
    intro p hp
    rcases List.mem_append.mp hp with hp | hp
    · exact hgroup _ p hp
    · obtain ⟨l, -, hp⟩ := List.mem_flatMap.mp hp
      rcases List.mem_cons.mp hp with rfl | hp
      · exact lexesTs_nil.cons (by simp) (rfl : tsSingle '|' = some [.bar])
      · exact hgroup _ p hp
  have hpieces : ∀ g, (group g).map (·.1) = groupPieces g := by
    intro g
    cases g with
    | nil => rfl
    | cons i g => simp [group, groupPieces, andPieces, List.map_flatMap]
  have htokens : ∀ g, (group g).flatMap (·.2) = groupTsTokens g := by
    intro g
    cases g with
    | nil => rfl
    | cons i g => simp [group, groupTsTokens, andTokens, List.flatMap_assoc]
  have htext : parts.map (·.1) = q.pieces := by
    simp only [parts, List.map_append, List.map_flatMap, List.map_cons, hpieces, Query.pieces]
  have hall : parts.flatMap (·.2) = q.tsTokens := by
    simp only [parts, List.flatMap_append, List.flatMap_assoc, List.flatMap_cons, htokens,
      Query.tsTokens, List.singleton_append]
  have hread := lexesTs_join hlexes [] (by simp)
  rw [List.append_nil, htext, hall] at hread
  rw [tsLex, hread]
  simp [tsLexFrom_nil, tsWord]

/-! ## The expression -/

def Item.tsQuery : Item u → TsQuery
  | .word w _ => .phrase [(w.text, false)]
  | .starts w => .phrase [(w.text, true)]
  | .phrase q => .phrase ((splitSpaces q.text).map (·, false))
  | .without w | .withoutStarts w => .not (.phrase [(w.text, false)])

/-- What Postgres asks of a document: an exclusion is about the word itself. -/
def Item.HoldsPg (doc : List Str) : Item u → Prop
  | .without w | .withoutStarts w => w.text ∉ doc
  | i => i.Found doc

theorem eval_tsQuery (doc : List Str) (i : Item u) :
    i.tsQuery.eval doc = true ↔ i.HoldsPg doc := by
  have hexcluded : ∀ w : Str, (TsQuery.not (.phrase [(w, false)])).eval doc = true ↔ w ∉ doc := by
    intro w
    rw [TsQuery.eval, Bool.not_eq_true', ← Bool.not_eq_true]
    exact not_congr occurs_word
  cases i with
  | word w plain => exact occurs_word
  | starts w => exact occurs_starts
  | phrase q => exact occurs_words q.ne
  | without w => exact hexcluded w.text
  | withoutStarts w => exact hexcluded w.text

/-- What may stand behind an operand. -/
def IsTsStop (t : TsToken) : Prop := t = .amp ∨ t = .bar ∨ t = .closing

theorem tsPhrase_stop (p : Phrase) {rest : List TsToken} (hrest : ∀ t ∈ rest.head?, IsTsStop t) :
    tsPhrase p rest = some (.phrase p, rest) := by
  cases rest with
  | nil => rfl
  | cons t rest => rcases hrest t rfl with rfl | rfl | rfl <;> rfl

theorem tsPhrase_words (p : Phrase) (ws : List Str) {rest : List TsToken}
    (hrest : ∀ t ∈ rest.head?, IsTsStop t) :
    tsPhrase p ((ws.flatMap fun v => [.next, .word v]) ++ rest) =
      some (.phrase (p ++ ws.map (·, false)), rest) := by
  induction ws generalizing p with
  | nil => simpa using tsPhrase_stop p hrest
  | cons w ws ih =>
    have hstep : tsPhrase p (.next :: .word w ::
        ((ws.flatMap fun v => [.next, .word v]) ++ rest)) =
        tsPhrase (p ++ [(w, false)]) ((ws.flatMap fun v => [.next, .word v]) ++ rest) := by
      cases ws with
      | cons v ws => rfl
      | nil =>
        cases rest with
        | nil => rfl
        | cons t rest => rcases hrest t rfl with rfl | rfl | rfl <;> rfl
    have hrun := ih (p ++ [(w, false)])
    rw [List.flatMap_cons, List.append_assoc]
    refine (hstep.trans hrun).trans ?_
    simp

theorem tsOperand_words {inner : Parser TsToken TsQuery} (w : Str) (ws : List Str) :
    Reads (tsOperand inner) IsTsStop (.word w :: ws.flatMap fun v => [.next, .word v])
      (.phrase ((w :: ws).map (·, false))) := by
  intro rest hrest
  have hrun := tsPhrase_words [(w, false)] ws hrest
  have hstep : tsOperand inner (.word w :: ((ws.flatMap fun v => [.next, .word v]) ++ rest)) =
      tsPhrase [(w, false)] ((ws.flatMap fun v => [.next, .word v]) ++ rest) := by
    cases ws with
    | cons v ws => rfl
    | nil =>
      cases rest with
      | nil => rfl
      | cons t rest => rcases hrest t rfl with rfl | rfl | rfl <;> rfl
  exact hstep.trans hrun

theorem isTsStop_operator {t : TsToken}
    (ht : (t = .closing ∨ (tsOr t).isSome = true) ∨ (tsAnd t).isSome = true) : IsTsStop t := by
  rcases ht with (rfl | ht) | ht
  · exact .inr (.inr rfl)
  · cases t <;> simp [tsOr] at ht
    exact .inr (.inl rfl)
  · cases t <;> simp [tsAnd] at ht
    exact .inl rfl

/-- A phrase between parentheses. -/
theorem tsExpr_words (n : ℕ) (w : Str) (ws : List Str) :
    Reads (tsExpr (n + 1)) (· = .closing) (.word w :: ws.flatMap fun v => [.next, .word v])
      (.phrase ((w :: ws).map (·, false))) := by
  refine chain_reads_one (chain_reads_one ?_ ?_) ?_
  · exact (tsOperand_words w ws).mono fun t ht => isTsStop_operator ht
  · rintro t (rfl | ht)
    · rfl
    · cases t <;> simp [tsOr] at ht
      rfl
  · rintro t rfl
    rfl

theorem tsOperand_reads (n : ℕ) (i : Item u) :
    Reads (tsOperand (tsExpr (n + 1))) IsTsStop i.tsTokens i.tsQuery := by
  have hword : ∀ w : Word u, Reads (tsOperand (tsExpr (n + 1))) IsTsStop [.word w.text]
      (.phrase [(w.text, false)]) := fun w => tsOperand_words w.text []
  have hnot : ∀ w : Word u, Reads (tsOperand (tsExpr (n + 1))) IsTsStop [.bang, .word w.text]
      (.not (.phrase [(w.text, false)])) := by
    intro w rest hrest
    have hread := hword w rest hrest
    simp only [List.cons_append, List.nil_append] at hread ⊢
    simp only [tsOperand.eq_3, hread]
  cases i with
  | word w plain => exact hword w
  | without w => exact hnot w
  | withoutStarts w => exact hnot w
  | starts w => exact fun rest hrest => tsPhrase_stop _ hrest
  | phrase q =>
    intro rest hrest
    rw [Item.tsTokens, Item.tsQuery]
    cases hsplit : splitSpaces q.text with
    | nil => exact absurd hsplit q.ne
    | cons w ws =>
      have hread := tsExpr_words n w ws (.closing :: rest) (by simp)
      simp only [List.head?_cons, Option.toList_some, List.map_cons, List.map_nil,
        List.tail_cons, List.cons_append, List.nil_append, List.append_assoc] at hread ⊢
      simp only [tsOperand.eq_4, hread]

/-! ## Groups -/

def ampLink (i : Item u) : Link TsToken TsQuery where
  token := .amp
  apply := .and
  tokens := i.tsTokens
  value := i.tsQuery

/-- What a group is read as. -/
def groupTsQuery : List (Item u) → TsQuery
  | [] => .phrase []
  | i :: g => fold i.tsQuery (g.map ampLink)

theorem eval_fold_and (doc : List Str) (a : TsQuery) (g : List (Item u)) :
    (fold a (g.map ampLink)).eval doc = true ↔
      a.eval doc = true ∧ ∀ i ∈ g, i.HoldsPg doc := by
  induction g generalizing a with
  | nil => simp
  | cons i g ih =>
    rw [List.map_cons, fold_cons, ih]
    simp only [ampLink, TsQuery.eval, Bool.and_eq_true, eval_tsQuery, List.forall_mem_cons,
      and_assoc]

theorem eval_groupTsQuery (doc : List Str) {g : List (Item u)} (hg : g ≠ []) :
    (groupTsQuery g).eval doc = true ↔ ∀ i ∈ g, i.HoldsPg doc := by
  cases g with
  | nil => exact absurd rfl hg
  | cons i g => rw [groupTsQuery, eval_fold_and, eval_tsQuery, List.forall_mem_cons]

theorem groupTs_reads (n : ℕ) {g : List (Item u)} (hg : g ≠ []) :
    Reads (chain tsAnd (tsOperand (tsExpr (n + 1)))) (· = .bar) (groupTsTokens g)
      (groupTsQuery g) := by
  have hstop : ∀ t, (t = .bar ∨ (tsAnd t).isSome = true) → IsTsStop t := by
    rintro t (rfl | ht)
    · exact .inr (.inl rfl)
    · cases t <;> simp [tsAnd] at ht
      exact .inl rfl
  cases g with
  | nil => exact absurd rfl hg
  | cons i g =>
    have htokens : groupTsTokens (i :: g) = i.tsTokens ++ behind (g.map ampLink) := by
      simp [groupTsTokens, andTokens, behind, List.flatMap_map, ampLink]
    rw [htokens, groupTsQuery]
    refine chain_reads ((tsOperand_reads n i).mono hstop) ?_ ?_ (by rintro t rfl; rfl)
    · intro link hlink
      obtain ⟨j, -, rfl⟩ := List.mem_map.mp hlink
      rfl
    · intro link hlink
      obtain ⟨j, -, rfl⟩ := List.mem_map.mp hlink
      exact (tsOperand_reads n j).mono hstop

/-! ## The query -/

def barLink (g : OrWord u × List (Item u)) : Link TsToken TsQuery where
  token := .bar
  apply := .or
  tokens := groupTsTokens g.2
  value := groupTsQuery g.2

theorem eval_fold_bar (doc : List Str) (a : TsQuery) (later : List (OrWord u × List (Item u))) :
    (fold a (later.map barLink)).eval doc = true ↔
      a.eval doc = true ∨ ∃ g ∈ later, (groupTsQuery g.2).eval doc = true := by
  induction later generalizing a with
  | nil => simp
  | cons g later ih =>
    rw [List.map_cons, fold_cons, ih]
    simp only [barLink, TsQuery.eval, Bool.or_eq_true, List.exists_mem_cons_iff, or_assoc]

theorem tsTokens_ne (q : Query u) : q.tsTokens ≠ [] := by
  have hitem : ∀ i : Item u, i.tsTokens ≠ [] := by
    intro i
    cases i <;> simp [Item.tsTokens]
  have hfirst := q.group_ne (.head _)
  unfold Query.tsTokens
  cases hg : q.first with
  | nil => exact absurd hg hfirst
  | cons i g => simp [groupTsTokens, hitem i]

theorem tsParse_tokens (q : Query u) :
    tsParse q.tsTokens = some (fold (groupTsQuery q.first) (q.later.map barLink)) := by
  have hlater : ∀ g ∈ q.later, g.2 ≠ [] := fun g hg =>
    q.group_ne (.tail _ (List.mem_map.mpr ⟨g, hg, rfl⟩))
  have hbar : ∀ t, (False ∨ (tsOr t).isSome = true) → t = .bar := by
    rintro t (ht | ht)
    · exact ht.elim
    · cases t <;> simp [tsOr] at ht
      rfl
  obtain ⟨n, hn⟩ : ∃ n, q.tsTokens.length = n + 1 :=
    ⟨q.tsTokens.length - 1, by have := List.length_pos_of_ne_nil (tsTokens_ne q); omega⟩
  have hread : Reads (tsExpr (n + 1 + 1)) (fun _ => False) q.tsTokens
      (fold (groupTsQuery q.first) (q.later.map barLink)) := by
    have htokens : q.tsTokens = groupTsTokens q.first ++ behind (q.later.map barLink) := by
      simp [Query.tsTokens, behind, List.flatMap_map, barLink]
    rw [htokens]
    refine chain_reads ((groupTs_reads n (q.group_ne (.head _))).mono hbar) ?_ ?_ (by simp)
    · intro link hlink
      obtain ⟨g, -, rfl⟩ := List.mem_map.mp hlink
      rfl
    · intro link hlink
      obtain ⟨g, hg, rfl⟩ := List.mem_map.mp hlink
      exact (groupTs_reads n (hlater g hg)).mono hbar
  simp only [tsParse, hn, hread.whole]

/-- A group holds for Postgres. -/
def HoldsPg (doc : List Str) (g : List (Item u)) : Prop := ∀ i ∈ g, i.HoldsPg doc

theorem tsMatches_raw (q : Query u) (doc : List Str) :
    tsMatches u (joinBlank q.pieces) .raw doc = true ↔ ∃ g ∈ q.groups, HoldsPg doc g := by
  have hlater : ∀ g ∈ q.later, g.2 ∈ q.groups := fun g hg =>
    .tail _ (List.mem_map.mpr ⟨g, hg, rfl⟩)
  simp only [tsMatches, tsLex_pieces, Option.bind_some, tsParse_tokens]
  rw [eval_fold_bar, eval_groupTsQuery doc (q.group_ne (.head _))]
  constructor
  · rintro (hg | ⟨g, hg, hfound⟩)
    · exact ⟨_, .head _, hg⟩
    · exact ⟨_, hlater g hg, (eval_groupTsQuery doc (q.group_ne (hlater g hg))).mp hfound⟩
  · rintro ⟨g, hg, hfound⟩
    rcases List.mem_cons.mp hg with rfl | hg'
    · exact .inl hfound
    · obtain ⟨l, hl, rfl⟩ := List.mem_map.mp hg'
      exact .inr ⟨l, hl, (eval_groupTsQuery doc (q.group_ne hg)).mpr hfound⟩

/-! ## The three modes -/

/-- The tokens without a quote in them. -/
def unquoted (ts : List Str) : Bool := ts.all fun t => decide ('"' ∉ t)

theorem toPostgres_unquoted (q : Query u)
    (h : ∀ token, tokens q.text = [token] → isQuoted token = false) :
    toPostgres u q.text =
      if hasOperators u (tokens q.text) = false ∧ unquoted (tokens q.text) = true then
        (strip q.text, .plain)
      else (joinBlank q.pieces, .raw) := by
  have hpieces := pgPieces_tokens q
  unfold toPostgres
  rw [if_neg q.strip_ne]
  generalize tokens q.text = ts at h hpieces ⊢
  cases ts with
  | nil => simp [unquoted, hpieces]
  | cons token ts =>
    cases ts with
    | cons token' ts =>
      dsimp only
      rw [hpieces]
      rfl
    | nil => simp [unquoted, hpieces, h token rfl]

/-- A query of one phrase. -/
theorem toPostgres_phrase (q : Query u) {p : Quoted u} (hfirst : q.first = [.phrase p])
    (hlater : q.later = []) : toPostgres u q.text = (p.text, .phrase) := by
  have htokens : tokens q.text = ['"' :: p.text ++ ['"']] := by
    rw [q.spelled, hfirst, hlater]
    rfl
  have hquoted : isQuoted ('"' :: p.text ++ ['"']) = true := by simp [isQuoted, List.getLast?_cons]
  unfold toPostgres
  rw [if_neg q.strip_ne, htokens]
  simp only [hquoted, if_true]
  simp

theorem mem_tokens_of_mem {q : Query u} {i : Item u} (hi : i ∈ q.first) :
    i.token ∈ tokens q.text := by
  rw [q.spelled]
  exact List.mem_append_left _ (List.mem_map_of_mem hi)

/-- In plain mode the query is one group of words. -/
theorem words_of_plain {q : Query u} (hop : hasOperators u (tokens q.text) = false)
    (hquote : unquoted (tokens q.text) = true) :
    q.later = [] ∧ ∀ i ∈ q.first, ∃ w plain, i = .word w plain := by
  simp only [hasOperators, List.any_eq_false, Bool.or_eq_true, beq_iff_eq, not_or] at hop
  simp only [unquoted, List.all_eq_true, decide_eq_true_eq] at hquote
  constructor
  · cases hlater : q.later with
    | nil => rfl
    | cons l later =>
      have hmem : l.1.text ∈ tokens q.text := by
        rw [q.spelled, hlater]
        simp
      exact absurd l.1.isOr (hop _ hmem).1.1
  · intro i hi
    have hmem := mem_tokens_of_mem hi
    cases i with
    | word w plain => exact ⟨w, plain, rfl⟩
    | starts w => exact absurd (by simp [Item.token]) (hop _ hmem).2
    | phrase p => exact absurd (by simp [Item.token]) (hquote _ hmem)
    | without w => exact absurd rfl (hop _ hmem).1.2
    | withoutStarts w => exact absurd rfl (hop _ hmem).1.2

/-- In plain mode Postgres sees the words of the query. -/
theorem words_strip {q : Query u} (hquote : unquoted (tokens q.text) = true)
    (hwords : ∀ t ∈ tokens q.text, ∀ c ∈ t, isAlnum u c = true) :
    words u (strip q.text) = tokens q.text := by
  simp only [unquoted, List.all_eq_true, decide_eq_true_eq] at hquote
  have hchars : ∀ c ∈ strip q.text, isAlnum u c = true ∨ isSpace c = true := by
    intro c hc
    cases hspace : isSpace c with
    | true => exact .inr rfl
    | false =>
      obtain ⟨t, ht, hmem⟩ := mem_tokens hc hspace
      exact .inl (hwords t ht c hmem)
  have hno : '"' ∉ strip q.text := by
    intro hmem
    obtain ⟨t, ht, hc⟩ := mem_tokens hmem (by decide)
    exact hquote t ht hc
  rw [words_eq_splitSpaces hchars, ← tokensFrom_eq_splitSpaces hno]
  rfl

theorem tsMatches_plain {q : Query u} (hop : hasOperators u (tokens q.text) = false)
    (hquote : unquoted (tokens q.text) = true) (doc : List Str) :
    tsMatches u (strip q.text) .plain doc = true ↔ ∃ g ∈ q.groups, HoldsPg doc g := by
  obtain ⟨hlater, hitems⟩ := words_of_plain hop hquote
  have htokens : tokens q.text = q.first.map Item.token := by
    rw [q.spelled, hlater]
    simp
  have hwords : words u (strip q.text) = q.first.map Item.token := by
    rw [← htokens]
    refine words_strip hquote fun t ht => ?_
    rw [htokens] at ht
    obtain ⟨i, hi, rfl⟩ := List.mem_map.mp ht
    obtain ⟨w, plain, rfl⟩ := hitems i hi
    exact w.alnum
  have hne : q.first ≠ [] := q.group_ne (.head _)
  have hgroups : q.groups = [q.first] := by simp [Query.groups, hlater]
  have hfound : ∀ i ∈ q.first, (occurs [(i.token, false)] doc = true ↔ i.HoldsPg doc) := by
    intro i hi
    obtain ⟨w, plain, rfl⟩ := hitems i hi
    exact occurs_word
  simp only [tsMatches, hwords, hgroups, List.mem_singleton, exists_eq_left, HoldsPg,
    Bool.and_eq_true, List.all_eq_true, List.mem_map, forall_exists_index, and_imp,
    forall_apply_eq_imp_iff₂]
  constructor
  · rintro ⟨-, h⟩ i hi
    exact (hfound i hi).mp (h i hi)
  · intro h
    exact ⟨by simp [hne], fun i hi => (hfound i hi).mpr (h i hi)⟩

/-- Postgres finds a document with a query if some group holds. -/
theorem postgresFinds_iff (q : Query u) (doc : List Str) :
    postgresFinds u q.text doc = true ↔ ∃ g ∈ q.groups, HoldsPg doc g := by
  by_cases hphrase : ∃ p, q.first = [.phrase p] ∧ q.later = []
  · obtain ⟨p, hfirst, hlater⟩ := hphrase
    have hne : p.text ≠ [] := by
      intro hnil
      have hwords := p.ne
      rw [hnil] at hwords
      exact hwords rfl
    have hgroups : q.groups = [[.phrase p]] := by simp [Query.groups, hfirst, hlater]
    simp only [postgresFinds, toPostgres_phrase q hfirst hlater, tsMatches, words_quoted, hgroups,
      List.mem_singleton, exists_eq_left, HoldsPg, forall_eq, hne, ne_eq, not_false_eq_true,
      decide_true, Bool.true_and]
    exact occurs_words p.ne
  · have hsingle : ∀ token, tokens q.text = [token] → isQuoted token = false := by
      intro token htoken
      cases hquoted : isQuoted token with
      | false => rfl
      | true =>
        refine absurd ?_ hphrase
        have hspelled := q.spelled
        rw [htoken] at hspelled
        cases hfirst : q.first with
        | nil => exact absurd hfirst (q.group_ne (.head _))
        | cons i g =>
          rw [hfirst, List.map_cons, List.cons_append, List.cons.injEq] at hspelled
          obtain ⟨rfl, hnil⟩ := hspelled
          obtain ⟨hg, hlater⟩ := List.append_eq_nil_iff.mp hnil.symm
          have hlater' : q.later = [] := by
            cases hl : q.later with
            | nil => rfl
            | cons l later => simp [hl] at hlater
          have hhead : i.token.head? = some '"' := by
            simp only [isQuoted, Bool.and_eq_true, beq_iff_eq] at hquoted
            exact hquoted.1
          rw [List.map_eq_nil_iff.mp hg]
          cases i with
          | phrase p => exact ⟨p, rfl, hlater'⟩
          | word w plain => exact absurd hhead (w.head_ne (by decide) (by decide))
          | starts w =>
            rw [Item.token, List.head?_append_of_ne_nil _ w.ne] at hhead
            exact absurd hhead (w.head_ne (by decide) (by decide))
          | without w => simp [Item.token] at hhead
          | withoutStarts w => simp [Item.token] at hhead
    have hmode := toPostgres_unquoted q hsingle
    unfold postgresFinds
    by_cases hplain : hasOperators u (tokens q.text) = false ∧ unquoted (tokens q.text) = true
    · rw [if_pos hplain] at hmode
      simp only [hmode, q.strip_ne, ne_eq, not_false_eq_true, decide_true, Bool.true_and]
      exact tsMatches_plain hplain.1 hplain.2 doc
    · have hne : joinBlank q.pieces ≠ [] := by
        intro hnil
        have hlex := tsLex_pieces q
        rw [hnil] at hlex
        exact tsTokens_ne q (Option.some.inj hlex).symm
      rw [if_neg hplain] at hmode
      simp only [hmode, hne, ne_eq, not_false_eq_true, decide_true, Bool.true_and]
      exact tsMatches_raw q doc

end CwStation.QueryParser
