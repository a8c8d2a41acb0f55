import CwStation.Verification.Search.Queries

/-! # What FTS5 makes of a query

The translation is a row of phrases with `NOT` in front of the exclusions. `NOT` takes the
whole row of phrases behind it, and cannot stand where an expression begins. -/

namespace CwStation.QueryParser

open TextSearch Operators

variable {u : Unicode}

/-! ## Reading the characters -/

/-- The tokens `ts` are read from `part`, if a blank or the end is behind it. -/
def Lexes (part : Str) (ts : List FtsToken) : Prop :=
  ∀ rest : Str, (∀ c ∈ rest.head?, c = ' ') →
    ftsLexFrom .between (part ++ rest) = (ftsLexFrom .between rest).map (ts ++ ·)

theorem ftsLexFrom_blank (rest : Str) :
    ftsLexFrom .between (' ' :: rest) = ftsLexFrom .between rest := by
  simp [ftsLexFrom, ftsStep, ftsStart]

/-- A state that ends a token at a blank or at the end. -/
theorem ftsLexFrom_stop {state : FtsState} {ts : List FtsToken} (hend : ftsEnd state = some ts)
    (hblank : ftsStep state ' ' = some (ts, .between)) {rest : Str}
    (hrest : ∀ c ∈ rest.head?, c = ' ') :
    ftsLexFrom state rest = (ftsLexFrom .between rest).map (ts ++ ·) := by
  cases rest with
  | nil =>
    change ftsEnd state = (ftsEnd .between).map (ts ++ ·)
    rw [hend]
    simp [ftsEnd]
  | cons c rest =>
    have hc : c = ' ' := hrest c rfl
    subst hc
    rw [ftsLexFrom_blank]
    simp [ftsLexFrom, hblank]

theorem ftsLexFrom_quoted {text : Str} (htext : '"' ∉ text) (acc rest : Str) :
    ftsLexFrom (.quoted acc) (text ++ '"' :: rest) = ftsLexFrom (.closed (acc ++ text)) rest := by
  induction text generalizing acc with
  | nil =>
    cases h : ftsLexFrom (.closed acc) rest <;> simp [ftsLexFrom, ftsStep, h]
  | cons c text ih =>
    rw [List.mem_cons, not_or] at htext
    have hrun := ih htext.2 (acc ++ [c])
    rw [List.append_assoc, List.singleton_append] at hrun
    rw [List.cons_append, ← hrun]
    cases h : ftsLexFrom (.quoted (acc ++ [c])) (text ++ '"' :: rest) <;>
      simp [ftsLexFrom, ftsStep, Ne.symm htext.1, h]

theorem lexes_quoted {text : Str} (htext : '"' ∉ text) : Lexes ('"' :: text ++ ['"']) [.str text] := by
  intro rest hrest
  have hopen : ftsLexFrom .between ('"' :: (text ++ '"' :: rest)) =
      ftsLexFrom (.quoted []) (text ++ '"' :: rest) := by
    cases h : ftsLexFrom (.quoted []) (text ++ '"' :: rest) <;>
      simp [ftsLexFrom, ftsStep, ftsStart, h]
  have hend : ftsEnd (.closed text) = some [.str text] := rfl
  have hstop := ftsLexFrom_stop hend (by simp [ftsStep, ftsStart]) hrest
  rw [← hstop, ← List.nil_append text, ← ftsLexFrom_quoted htext [] rest, List.nil_append, ← hopen]
  simp

theorem ftsStart_bare {c : Char} (hc : isBareChar c = true) : ftsStart c = some ([], .bare [c]) := by
  have hne : ∀ d : Char, isBareChar d = false → c ≠ d := by
    rintro d hd rfl
    rw [hc] at hd
    cases hd
  unfold ftsStart
  rw [if_neg (by simp [hne ' ' (by decide), hne '\t' (by decide), hne '\n' (by decide),
      hne '\r' (by decide)]), if_neg (hne '"' (by decide)), if_neg (hne '*' (by decide)),
    if_neg (hne '(' (by decide)), if_neg (hne ')' (by decide)), if_pos hc]

theorem ftsLexFrom_bare {w : Str} (hw : ∀ c ∈ w, isBareChar c = true) (acc rest : Str) :
    ftsLexFrom (.bare acc) (w ++ rest) = ftsLexFrom (.bare (acc ++ w)) rest := by
  induction w generalizing acc with
  | nil => simp
  | cons c w ih =>
    have hrun := ih (fun d hd => hw d (.tail _ hd)) (acc ++ [c])
    rw [List.append_assoc, List.singleton_append] at hrun
    rw [List.cons_append, ← hrun]
    cases h : ftsLexFrom (.bare (acc ++ [c])) (w ++ rest) <;>
      simp [ftsLexFrom, ftsStep, hw c (.head _), h]

theorem ftsLexFrom_word {w : Str} (hne : w ≠ []) (hw : ∀ c ∈ w, isBareChar c = true) (rest : Str) :
    ftsLexFrom .between (w ++ rest) = ftsLexFrom (.bare w) rest := by
  cases w with
  | nil => exact absurd rfl hne
  | cons c w =>
    have hrun := ftsLexFrom_bare (fun d hd => hw d (.tail _ hd)) [c] rest
    rw [List.singleton_append] at hrun
    rw [List.cons_append, ← hrun]
    cases h : ftsLexFrom (.bare [c]) (w ++ rest) <;>
      simp [ftsLexFrom, ftsStep, ftsStart_bare (hw c (.head _)), h]

theorem lexes_bare {w : Str} (hne : w ≠ []) (hw : ∀ c ∈ w, isBareChar c = true) :
    Lexes w [bareword w] := by
  intro rest hrest
  rw [ftsLexFrom_word hne hw]
  exact ftsLexFrom_stop rfl (by simp [ftsStep, ftsStart, show isBareChar ' ' = false by decide])
    hrest

theorem lexes_star {w : Str} (hne : w ≠ []) (hw : ∀ c ∈ w, isBareChar c = true) :
    Lexes (w ++ ['*']) [bareword w, .star] := by
  intro rest hrest
  rw [List.append_assoc, ftsLexFrom_word hne hw]
  cases h : ftsLexFrom .between rest <;>
    simp [ftsLexFrom, ftsStep, ftsStart, show isBareChar '*' = false by decide, h]

theorem Lexes.append {a b : Str} {ts us : List FtsToken} (ha : Lexes a ts) (hb : Lexes b us) :
    Lexes (a ++ ' ' :: b) (ts ++ us) := by
  intro rest hrest
  rw [List.append_assoc, ha _ (by simp), List.cons_append, ftsLexFrom_blank, hb rest hrest,
    Option.map_map]
  simp [Function.comp_def]

theorem lexes_join {parts : List (Str × List FtsToken)} (h : ∀ p ∈ parts, Lexes p.1 p.2) :
    Lexes (joinBlank (parts.map (·.1))) (parts.flatMap (·.2)) := by
  induction parts with
  | nil =>
    intro rest _
    cases h : ftsLexFrom .between rest <;> simp [joinBlank, List.intercalate, h]
  | cons p parts ih =>
    have htail := ih fun q hq => h q (.tail _ hq)
    cases parts with
    | nil => simpa [joinBlank, List.intercalate] using h p (.head _)
    | cons q parts =>
      have hjoin : joinBlank ((p :: q :: parts).map (·.1)) =
          p.1 ++ ' ' :: joinBlank ((q :: parts).map (·.1)) := by
        rw [joinBlank, List.map_cons, intercalate_cons]
        simp [joinBlank]
      rw [hjoin, List.flatMap_cons]
      exact (h p (.head _)).append htail

/-! ## The tokens of the translation -/

/-- The tokens of an item, without the `NOT`. -/
def Item.ftsNamed : Item u → List FtsToken
  | .word w _ | .without w => [.str w.text]
  | .starts w | .withoutStarts w => [bareword w.text, .star]
  | .phrase q => [.str q.text]

def Item.ftsTokens (i : Item u) : List FtsToken :=
  if i.positive then i.ftsNamed else .not :: i.ftsNamed

def groupTokens (g : List (Item u)) : List FtsToken := g.flatMap Item.ftsTokens

def Query.ftsTokens (q : Query u) : List FtsToken :=
  groupTokens q.first ++ q.later.flatMap fun g => .or :: groupTokens g.2

namespace Word

variable (w : Word u)

theorem isBareChar : ∀ c ∈ w.text, isBareChar c = true := fun c hc =>
  isBareChar_of_isAlnum (w.alnum c hc)

theorem quoteForFts5 : quoteForFts5 u w.text = '"' :: w.text ++ ['"'] := by
  have hquoted : isQuoted w.text = false := by
    simp [isQuoted, w.head_ne (c := '"') (by decide) (by decide)]
  have hprefix : isPrefixWord u w.text = false := by
    simp [isPrefixWord, w.getLast_ne (c := '*') (by decide) (by decide)]
  have hfilter : w.text.filter (· ≠ '"') = w.text :=
    w.filter_eq fun c hc => by simpa using ne_of_isAlnum hc (by decide) (by decide)
  simp only [QueryParser.quoteForFts5, hquoted, hprefix, hfilter, Bool.false_eq_true, if_false]

theorem quoteForFts5_star : QueryParser.quoteForFts5 u (w.text ++ ['*']) = w.text ++ ['*'] := by
  have hword : ∀ c ∈ w.text, u.isWord c = true := by
    intro c hc
    have halnum := w.alnum c hc
    rw [isAlnum, Bool.and_eq_true] at halnum
    exact halnum.1
  have hquoted : isQuoted (w.text ++ ['*']) = false := by simp [isQuoted]
  have hprefix : isPrefixWord u (w.text ++ ['*']) = true := by
    simp only [isPrefixWord, List.getLast?_concat, List.dropLast_concat, Bool.and_eq_true,
      List.all_eq_true, Bool.or_eq_true]
    refine ⟨⟨by simp, ?_⟩, fun c hc => .inl (hword c hc)⟩
    cases htext : w.text with
    | nil => exact absurd htext w.ne
    | cons c cs => rfl
  simp only [QueryParser.quoteForFts5, hquoted, hprefix, Bool.false_eq_true, if_false, if_true]

end Word

theorem Quoted.quoteForFts5 (q : Quoted u) :
    quoteForFts5 u ('"' :: q.text ++ ['"']) = '"' :: q.text ++ ['"'] := by
  have hquoted : isQuoted ('"' :: q.text ++ ['"']) = true := by
    simp [isQuoted, List.getLast?_cons]
  simp only [QueryParser.quoteForFts5, hquoted, if_true]

theorem lexes_not {part : Str} {ts : List FtsToken} (h : Lexes part ts) :
    Lexes ("NOT ".toList ++ part) (.not :: ts) := by
  have hnot : Lexes "NOT".toList [.not] := lexes_bare (by decide) (List.all_eq_true.mp (by decide))
  exact hnot.append h

theorem fts5Part_minus {inner : Str} (hne : inner ≠ []) :
    fts5Part u ('-' :: inner) = "NOT ".toList ++ quoteForFts5 u inner := by
  have hor : isOr u ('-' :: inner) = false := isOr_of_head (by decide) (by decide) (by decide)
  simp [fts5Part, hor, List.length_pos_of_ne_nil hne]

theorem fts5Part_of_head {token : Str} (hor : isOr u token = false) (h : token.head? ≠ some '-') :
    fts5Part u token = quoteForFts5 u token := by
  simp [fts5Part, hor, h]

/-- FTS5 reads an item's part as the item's tokens. -/
theorem lexes_fts5Part (i : Item u) : Lexes (fts5Part u i.token) i.ftsTokens := by
  have hor := isOr_token i
  cases i with
  | word w plain =>
    rw [fts5Part_of_head hor (w.head_ne (by decide) (by decide))]
    rw [show (Item.word w plain).token = w.text from rfl, w.quoteForFts5]
    exact lexes_quoted (w.ne_of_mem (by decide) (by decide))
  | starts w =>
    have hhead : (w.text ++ ['*']).head? ≠ some '-' := by
      rw [List.head?_append_of_ne_nil _ w.ne]
      exact w.head_ne (by decide) (by decide)
    rw [fts5Part_of_head hor hhead]
    rw [show (Item.starts w).token = w.text ++ ['*'] from rfl, w.quoteForFts5_star]
    exact lexes_star w.ne w.isBareChar
  | phrase q =>
    rw [fts5Part_of_head hor (by simp [Item.token])]
    rw [show (Item.phrase q).token = '"' :: q.text ++ ['"'] from rfl, q.quoteForFts5]
    exact lexes_quoted q.not_mem_quote
  | without w =>
    rw [show (Item.without w).token = '-' :: w.text from rfl, fts5Part_minus w.ne, w.quoteForFts5]
    exact lexes_not (lexes_quoted (w.ne_of_mem (by decide) (by decide)))
  | withoutStarts w =>
    have hpart : fts5Part u ('-' :: (w.text ++ ['*'])) = "NOT ".toList ++ (w.text ++ ['*']) := by
      rw [fts5Part_minus (by simp), w.quoteForFts5_star]
    rw [show (Item.withoutStarts w).token = '-' :: (w.text ++ ['*']) by simp [Item.token], hpart]
    exact lexes_not (lexes_star w.ne w.isBareChar)

/-- FTS5 reads the translation of a query as the query's tokens. -/
theorem ftsLex_toFts5 (q : Query u) : ftsLex (toFts5 u q.text) = some q.ftsTokens := by
  let items : List (Item u) → List (Str × List FtsToken) := fun g =>
    g.map fun i => (fts5Part u i.token, i.ftsTokens)
  let parts : List (Str × List FtsToken) :=
    items q.first ++ q.later.flatMap fun g => ("OR".toList, [.or]) :: items g.2
  have hitems : ∀ g, ∀ p ∈ items g, Lexes p.1 p.2 := by
    intro g p hp
    obtain ⟨i, -, rfl⟩ := List.mem_map.mp hp
    exact lexes_fts5Part i
  have hlexes : ∀ p ∈ parts, Lexes p.1 p.2 := by
    intro p hp
    rcases List.mem_append.mp hp with hp | hp
    · exact hitems _ p hp
    · obtain ⟨g, -, hp⟩ := List.mem_flatMap.mp hp
      rcases List.mem_cons.mp hp with rfl | hp
      · exact lexes_bare (by decide) (List.all_eq_true.mp (by decide))
      · exact hitems _ p hp
  have htext : toFts5 u q.text = joinBlank (parts.map (·.1)) := by
    have hor : ∀ o : OrWord u, fts5Part u o.text = "OR".toList := fun o => by
      simp [fts5Part, o.isOr]
    simp only [toFts5, q.strip_ne, if_false, q.spelled, parts, items, List.map_append,
      List.map_map, List.map_flatMap, List.map_cons, hor]
    rfl
  have htokens : q.ftsTokens = parts.flatMap (·.2) := by
    simp [Query.ftsTokens, groupTokens, parts, items, List.flatMap_append, List.flatMap_map,
      List.flatMap_assoc]
  have hread := lexes_join hlexes [] (by simp)
  rw [List.append_nil] at hread
  rw [ftsLex, htext, htokens, hread]
  simp [ftsLexFrom, ftsEnd]

/-! ## The expression -/

/-- A prefix word that FTS5 takes for one of its operators. -/
def Item.reserved : Item u → Bool
  | .starts w | .withoutStarts w =>
      w.text == "AND".toList || w.text == "OR".toList || w.text == "NOT".toList
  | _ => false

/-- The phrase of an item. -/
def Item.ftsPhrase : Item u → FtsQuery
  | .word w _ | .without w => .phrase w.text false
  | .starts w | .withoutStarts w => .phrase w.text true
  | .phrase q => .phrase q.text false

theorem ftsPhrase_false (text : Str) : ftsPhrase u text false = (words u text).map (·, false) := by
  simp only [ftsPhrase]
  generalize words u text = ws
  cases hlast : ws.getLast? with
  | none => simp [List.getLast?_eq_none_iff.mp hlast]
  | some w =>
    obtain ⟨vs, rfl⟩ := List.getLast?_eq_some_iff.mp hlast
    simp

theorem eval_ftsPhrase (doc : List Str) (i : Item u) :
    i.ftsPhrase.eval u doc = true ↔ i.Found doc := by
  rw [← occurs_named]
  cases i with
  | phrase q => rw [Item.ftsPhrase, FtsQuery.eval, ftsPhrase_false, words_quoted, Item.named]
  | word w plain => simp [Item.ftsPhrase, FtsQuery.eval, ftsPhrase, words_word, Item.named]
  | starts w => simp [Item.ftsPhrase, FtsQuery.eval, ftsPhrase, words_word, Item.named]
  | without w => simp [Item.ftsPhrase, FtsQuery.eval, ftsPhrase, words_word, Item.named]
  | withoutStarts w => simp [Item.ftsPhrase, FtsQuery.eval, ftsPhrase, words_word, Item.named]

theorem ftsNamed_cases (i : Item u) (h : i.reserved = false) :
    (∃ text, i.ftsNamed = [.str text] ∧ i.ftsPhrase = .phrase text false) ∨
      ∃ text, i.ftsNamed = [.str text, .star] ∧ i.ftsPhrase = .phrase text true := by
  have hbare : ∀ w : Word u, (Item.starts w).reserved = false → bareword w.text = .str w.text := by
    intro w hw
    simp only [Item.reserved, Bool.or_eq_false_iff, beq_eq_false_iff_ne] at hw
    rw [bareword, if_neg hw.1.1, if_neg hw.1.2, if_neg hw.2]
  cases i with
  | word w plain => exact .inl ⟨w.text, rfl, rfl⟩
  | starts w => exact .inr ⟨w.text, by rw [Item.ftsNamed, hbare w h], rfl⟩
  | phrase q => exact .inl ⟨q.text, rfl, rfl⟩
  | without w => exact .inl ⟨w.text, rfl, rfl⟩
  | withoutStarts w => exact .inr ⟨w.text, by rw [Item.ftsNamed, hbare w h], rfl⟩

def IsOperator (t : FtsToken) : Prop := t = .and ∨ t = .or ∨ t = .not

/-- What a row of phrases is read as. -/
def row (a : FtsQuery) (items : List (Item u)) : FtsQuery :=
  items.foldl (fun acc i => .and acc i.ftsPhrase) a

theorem eval_row (doc : List Str) (a : FtsQuery) (items : List (Item u)) :
    (row a items).eval u doc = true ↔ a.eval u doc = true ∧ ∀ i ∈ items, i.Found doc := by
  induction items generalizing a with
  | nil => simp [row]
  | cons i items ih =>
    have hrow : row a (i :: items) = row (.and a i.ftsPhrase) items := rfl
    rw [hrow, ih, FtsQuery.eval, Bool.and_eq_true, eval_ftsPhrase, List.forall_mem_cons, and_assoc]

/-- A row of phrases does not begin with a star. -/
theorem head_named {items : List (Item u)} (hitems : ∀ i ∈ items, i.reserved = false)
    {rest : List FtsToken} (hrest : ∀ t ∈ rest.head?, IsOperator t) :
    ∀ t ∈ (items.flatMap Item.ftsNamed ++ rest).head?, t ≠ .star := by
  intro t ht
  cases items with
  | nil =>
    rintro rfl
    rcases hrest _ ht with h | h | h <;> cases h
  | cons i items =>
    rcases ftsNamed_cases i (hitems i (.head _)) with ⟨text, hnamed, -⟩ | ⟨text, hnamed, -⟩ <;>
    · simp only [List.flatMap_cons, hnamed, List.cons_append, List.head?_cons,
        Option.mem_some_iff] at ht
      rw [← ht]
      simp

/-- One more phrase of a row. -/
theorem ftsPhrases_cons (i : Item u) (h : i.reserved = false) (acc : FtsQuery)
    {ts : List FtsToken} (hts : ∀ t ∈ ts.head?, t ≠ .star) :
    ftsPhrases acc (i.ftsNamed ++ ts) = ftsPhrases (.and acc i.ftsPhrase) ts := by
  rcases ftsNamed_cases i h with ⟨text, hnamed, hphrase⟩ | ⟨text, hnamed, hphrase⟩
  · rw [hnamed, hphrase, List.singleton_append]
    cases ts with
    | nil => rfl
    | cons t ts =>
      cases t <;> first | rfl | exact absurd rfl (hts _ rfl)
  · rw [hnamed, hphrase]
    rfl

theorem ftsPhrases_stop (acc : FtsQuery) {rest : List FtsToken}
    (hrest : ∀ t ∈ rest.head?, IsOperator t) : ftsPhrases acc rest = some (acc, rest) := by
  cases rest with
  | nil => rfl
  | cons t rest =>
    rcases hrest t rfl with rfl | rfl | rfl <;> rfl

theorem ftsPhrases_row {items : List (Item u)} (hitems : ∀ i ∈ items, i.reserved = false)
    (acc : FtsQuery) {rest : List FtsToken} (hrest : ∀ t ∈ rest.head?, IsOperator t) :
    ftsPhrases acc (items.flatMap Item.ftsNamed ++ rest) = some (row acc items, rest) := by
  induction items generalizing acc with
  | nil => exact ftsPhrases_stop acc hrest
  | cons i items ih =>
    have htail : ∀ j ∈ items, j.reserved = false := fun j hj => hitems j (.tail _ hj)
    rw [List.flatMap_cons, List.append_assoc,
      ftsPhrases_cons i (hitems i (.head _)) acc (head_named htail hrest)]
    exact ih htail (.and acc i.ftsPhrase)

/-- A row of phrases is an operand. -/
theorem ftsOperand_reads {inner : Parser FtsToken FtsQuery} {i : Item u} {items : List (Item u)}
    (h : ∀ j ∈ i :: items, j.reserved = false) :
    Reads (ftsOperand inner) IsOperator (i.ftsNamed ++ items.flatMap Item.ftsNamed)
      (row i.ftsPhrase items) := by
  intro rest hrest
  have hitems : ∀ j ∈ items, j.reserved = false := fun j hj => h j (.tail _ hj)
  have hhead := head_named hitems hrest
  have hrow := ftsPhrases_row hitems i.ftsPhrase hrest
  rw [List.append_assoc]
  rcases ftsNamed_cases i (h i (.head _)) with ⟨text, hnamed, hphrase⟩ | ⟨text, hnamed, hphrase⟩
  · rw [hnamed, List.singleton_append, ← hrow, hphrase]
    generalize items.flatMap Item.ftsNamed ++ rest = ts at hhead
    cases ts with
    | nil => rfl
    | cons t ts => cases t <;> first | rfl | exact absurd rfl (hhead _ rfl)
  · rw [hnamed, ← hrow, hphrase]
    rfl

/-! ## Groups -/

/-- The positive items a group begins with, and each exclusion with the positive items behind
it. -/
def runs : List (Item u) → List (Item u) × List (Item u × List (Item u))
  | [] => ([], [])
  | i :: items =>
      let (run, later) := runs items
      if i.positive then (i :: run, later) else ([], (i, run) :: later)

theorem mem_runs {g : List (Item u)} :
    (∀ i ∈ (runs g).1, i ∈ g ∧ i.positive = true) ∧
      ∀ s ∈ (runs g).2, (s.1 ∈ g ∧ s.1.positive = false) ∧ ∀ i ∈ s.2, i ∈ g ∧ i.positive = true := by
  induction g with
  | nil => simp [runs]
  | cons i g ih =>
    have hrun : ∀ j ∈ (runs g).1, j ∈ i :: g ∧ j.positive = true := fun j hj =>
      ⟨.tail _ (ih.1 j hj).1, (ih.1 j hj).2⟩
    have hlater : ∀ s ∈ (runs g).2, (s.1 ∈ i :: g ∧ s.1.positive = false) ∧
        ∀ j ∈ s.2, j ∈ i :: g ∧ j.positive = true := fun s hs =>
      ⟨⟨.tail _ (ih.2 s hs).1.1, (ih.2 s hs).1.2⟩,
        fun j hj => ⟨.tail _ ((ih.2 s hs).2 j hj).1, ((ih.2 s hs).2 j hj).2⟩⟩
    cases hi : i.positive with
    | true =>
      simp only [runs, hi, if_true]
      exact ⟨List.forall_mem_cons.mpr ⟨⟨.head _, hi⟩, hrun⟩, hlater⟩
    | false =>
      simp only [runs, hi, Bool.false_eq_true, if_false]
      exact ⟨by simp, List.forall_mem_cons.mpr ⟨⟨⟨.head _, hi⟩, hrun⟩, hlater⟩⟩

/-- The operand behind a `NOT`. -/
def notLink (s : Item u × List (Item u)) : Link FtsToken FtsQuery where
  token := .not
  apply := .not
  tokens := s.1.ftsNamed ++ s.2.flatMap Item.ftsNamed
  value := row s.1.ftsPhrase s.2

theorem groupTokens_eq (g : List (Item u)) :
    groupTokens g = (runs g).1.flatMap Item.ftsNamed ++ behind ((runs g).2.map notLink) := by
  induction g with
  | nil => rfl
  | cons i g ih =>
    have hcons : groupTokens (i :: g) = i.ftsTokens ++ groupTokens g := rfl
    rw [hcons, ih]
    cases hi : i.positive with
    | true => simp [runs, hi, Item.ftsTokens]
    | false => simp [runs, hi, Item.ftsTokens, notLink]

/-- What a group that begins with a positive item is read as. -/
def groupQuery (g : List (Item u)) : FtsQuery :=
  match (runs g).1 with
  | [] => .phrase [] false
  | i :: run => fold (row i.ftsPhrase run) ((runs g).2.map notLink)

/-- The meaning of a group for FTS5: each exclusion takes the positive items behind it along. -/
def ReadsAs (doc : List Str) (g : List (Item u)) : Prop :=
  (∀ i ∈ (runs g).1, i.Found doc) ∧
    ∀ s ∈ (runs g).2, ¬(s.1.Found doc ∧ ∀ i ∈ s.2, i.Found doc)

theorem eval_fold_not (doc : List Str) (a : FtsQuery) (later : List (Item u × List (Item u))) :
    (fold a (later.map notLink)).eval u doc = true ↔
      a.eval u doc = true ∧ ∀ s ∈ later, ¬(s.1.Found doc ∧ ∀ i ∈ s.2, i.Found doc) := by
  induction later generalizing a with
  | nil => simp
  | cons s later ih =>
    have hvalue := eval_row doc s.1.ftsPhrase s.2
    rw [eval_ftsPhrase] at hvalue
    rw [List.map_cons, fold_cons, ih]
    simp only [notLink, FtsQuery.eval, Bool.and_eq_true, Bool.not_eq_true', List.forall_mem_cons,
      ← hvalue, Bool.not_eq_true, and_assoc]

/-- A group whose first item is positive. -/
def BeginsPositive (g : List (Item u)) : Prop := ∃ i ∈ g.head?, i.positive = true

theorem runs_of_beginsPositive {g : List (Item u)} (h : BeginsPositive g) :
    ∃ i run, (runs g).1 = i :: run := by
  obtain ⟨i, hhead, hi⟩ := h
  cases g with
  | nil => cases hhead
  | cons j g =>
    rw [List.head?_cons, Option.mem_some_iff] at hhead
    subst hhead
    exact ⟨j, (runs g).1, by simp [runs, hi]⟩

theorem eval_groupQuery (doc : List Str) {g : List (Item u)} (h : BeginsPositive g) :
    (groupQuery g).eval u doc = true ↔ ReadsAs doc g := by
  obtain ⟨i, run, hrun⟩ := runs_of_beginsPositive h
  unfold groupQuery ReadsAs
  simp only [hrun]
  rw [eval_fold_not, eval_row, eval_ftsPhrase, List.forall_mem_cons]

theorem group_reads {inner : Parser FtsToken FtsQuery} {g : List (Item u)} (h : BeginsPositive g)
    (hplain : ∀ i ∈ g, i.reserved = false) :
    Reads (chain ftsAnd (chain ftsNot (ftsOperand inner))) (· = .or) (groupTokens g)
      (groupQuery g) := by
  obtain ⟨i, run, hrun⟩ := runs_of_beginsPositive h
  have hmem := mem_runs (g := g)
  have hoperator : ∀ t, ((t = .or ∨ (ftsAnd t).isSome = true) ∨ (ftsNot t).isSome = true) →
      IsOperator t := by
    rintro t ((rfl | ht) | ht)
    · exact .inr (.inl rfl)
    · cases t <;> simp [ftsAnd] at ht
      exact .inl rfl
    · cases t <;> simp [ftsNot] at ht
      exact .inr (.inr rfl)
  refine chain_reads_one ?_ (by rintro t rfl; rfl)
  have hgroup : groupTokens g =
      (i.ftsNamed ++ run.flatMap Item.ftsNamed) ++ behind ((runs g).2.map notLink) := by
    rw [groupTokens_eq, hrun, List.flatMap_cons]
  have hquery : groupQuery g = fold (row i.ftsPhrase run) ((runs g).2.map notLink) := by
    simp only [groupQuery, hrun]
  rw [hgroup, hquery]
  refine chain_reads ?_ ?_ ?_ ?_
  · refine (ftsOperand_reads fun j hj => ?_).mono hoperator
    exact hplain j (hmem.1 j (hrun ▸ hj)).1
  · intro link hlink
    obtain ⟨s, -, rfl⟩ := List.mem_map.mp hlink
    rfl
  · intro link hlink
    obtain ⟨s, hs, rfl⟩ := List.mem_map.mp hlink
    refine (ftsOperand_reads fun j hj => ?_).mono hoperator
    rcases List.mem_cons.mp hj with rfl | hj
    · exact hplain _ ((hmem.2 s hs).1).1
    · exact hplain j ((hmem.2 s hs).2 j hj).1
  · rintro t (rfl | ht)
    · rfl
    · cases t <;> simp [ftsAnd] at ht
      rfl

/-! ## The query -/

/-- Each group begins with a positive item, and no prefix word is one of the operators. -/
structure Query.WellPlaced (q : Query u) : Prop where
  begins : ∀ g ∈ q.groups, BeginsPositive g
  plain : ∀ g ∈ q.groups, ∀ i ∈ g, i.reserved = false

def orLink (g : OrWord u × List (Item u)) : Link FtsToken FtsQuery where
  token := .or
  apply := .or
  tokens := groupTokens g.2
  value := groupQuery g.2

theorem eval_fold_or (doc : List Str) (a : FtsQuery) (later : List (OrWord u × List (Item u))) :
    (fold a (later.map orLink)).eval u doc = true ↔
      a.eval u doc = true ∨ ∃ g ∈ later, (groupQuery g.2).eval u doc = true := by
  induction later generalizing a with
  | nil => simp
  | cons g later ih =>
    rw [List.map_cons, fold_cons, ih]
    simp only [orLink, FtsQuery.eval, Bool.or_eq_true, List.exists_mem_cons_iff, or_assoc]

theorem ftsParse_tokens {q : Query u} (h : q.WellPlaced) :
    ftsParse q.ftsTokens = some (fold (groupQuery q.first) (q.later.map orLink)) := by
  have hlater : ∀ g ∈ q.later, g.2 ∈ q.groups := fun g hg =>
    .tail _ (List.mem_map.mpr ⟨g, hg, rfl⟩)
  have htokens : q.ftsTokens = groupTokens q.first ++ behind (q.later.map orLink) := by
    simp [Query.ftsTokens, behind, List.flatMap_map, orLink]
  have hor : ∀ t, (False ∨ (ftsOr t).isSome = true) → t = .or := by
    rintro t (ht | ht)
    · exact ht.elim
    · cases t <;> simp [ftsOr] at ht
      rfl
  have hread : Reads (ftsExpr (q.ftsTokens.length + 1)) (fun _ => False) q.ftsTokens
      (fold (groupQuery q.first) (q.later.map orLink)) := by
    rw [htokens]
    refine chain_reads ?_ ?_ ?_ (by simp)
    · refine (group_reads (h.begins _ (.head _)) (h.plain _ (.head _))).mono hor
    · intro link hlink
      obtain ⟨g, -, rfl⟩ := List.mem_map.mp hlink
      rfl
    · intro link hlink
      obtain ⟨g, hg, rfl⟩ := List.mem_map.mp hlink
      exact (group_reads (h.begins _ (hlater g hg)) (h.plain _ (hlater g hg))).mono hor
  simp only [ftsParse, hread.whole]

/-- FTS5 finds a document with a well placed query if it finds it with one of the groups. -/
theorem fts5Finds_iff {q : Query u} (h : q.WellPlaced) (doc : List Str) :
    fts5Finds u q.text doc = true ↔ ∃ g ∈ q.groups, ReadsAs doc g := by
  have hlater : ∀ g ∈ q.later, g.2 ∈ q.groups := fun g hg =>
    .tail _ (List.mem_map.mpr ⟨g, hg, rfl⟩)
  have hne : toFts5 u q.text ≠ [] := by
    intro hnil
    have hlex := ftsLex_toFts5 q
    rw [hnil] at hlex
    have htokens : q.ftsTokens = [] := (Option.some.inj hlex).symm
    have hparse := ftsParse_tokens h
    rw [htokens] at hparse
    cases hparse
  have hmatches : ftsMatches u (toFts5 u q.text) doc =
      (fold (groupQuery q.first) (q.later.map orLink)).eval u doc := by
    simp [ftsMatches, ftsLex_toFts5, ftsParse_tokens h]
  simp only [fts5Finds, hne, ne_eq, not_false_eq_true, decide_true, Bool.true_and, hmatches]
  rw [eval_fold_or, eval_groupQuery doc (h.begins _ (.head _))]
  constructor
  · rintro (hg | ⟨g, hg, hfound⟩)
    · exact ⟨_, .head _, hg⟩
    · exact ⟨_, hlater g hg, (eval_groupQuery doc (h.begins _ (hlater g hg))).mp hfound⟩
  · rintro ⟨g, hg, hfound⟩
    rcases List.mem_cons.mp hg with rfl | hg'
    · exact .inl hfound
    · obtain ⟨l, hl, rfl⟩ := List.mem_map.mp hg'
      exact .inr ⟨l, hl, (eval_groupQuery doc (h.begins _ hg)).mpr hfound⟩

/-! ## Where operators stand -/

def Starts (t : FtsToken) : Prop := (∃ text, t = .str text) ∨ t = .opening

def Ends (t : FtsToken) : Prop := (∃ text, t = .str text) ∨ t = .star ∨ t = .closing

/-- A token may stand behind another: a star behind a string, an operator behind an operand. -/
def MayFollow (t : FtsToken) : FtsToken → Prop
  | .star => ∃ text, t = .str text
  | .and | .or | .not | .closing => Ends t
  | .str _ | .opening => True

theorem mayFollow_of_starts {o t : FtsToken} (ht : Starts t) : MayFollow o t := by
  rcases ht with ⟨text, rfl⟩ | rfl <;> trivial

/-- A stretch of tokens grows by a token, and by a string with a star. -/
theorem isChain_concat {t z : FtsToken} {pre : List FtsToken}
    (hpre : List.IsChain MayFollow (t :: pre)) (hz : ∀ y ∈ (t :: pre).getLast?, MayFollow y z) :
    List.IsChain MayFollow (t :: (pre ++ [z])) := by
  rw [← List.cons_append]
  refine List.isChain_append.mpr ⟨hpre, List.isChain_singleton z, ?_⟩
  intro y hy x hx
  rw [List.head?_cons, Option.mem_some_iff] at hx
  exact hx ▸ hz y hy

theorem ftsPhrases_placed {acc q : FtsQuery} {ts rest : List FtsToken}
    (h : ftsPhrases acc ts = some (q, rest)) {t : FtsToken} {pre : List FtsToken}
    (hpre : List.IsChain MayFollow (t :: pre)) (hlast : ∀ z ∈ (t :: pre).getLast?, Ends z) :
    ∃ more, ts = more ++ rest ∧ List.IsChain MayFollow (t :: (pre ++ more)) ∧
      ∀ z ∈ (t :: (pre ++ more)).getLast?, Ends z := by
  induction hlength : ts.length using Nat.strong_induction_on generalizing acc ts pre with
  | _ n ih =>
    subst hlength
    have hstop : some (acc, ts) = some (q, rest) → ∃ more, ts = more ++ rest ∧
        List.IsChain MayFollow (t :: (pre ++ more)) ∧
        ∀ z ∈ (t :: (pre ++ more)).getLast?, Ends z := by
      intro heq
      cases heq
      exact ⟨[], rfl, by simpa using hpre, by simpa using hlast⟩
    cases ts with
    | nil => exact hstop h
    | cons s ts =>
      cases s with
      | star | and | or | not | opening | closing => exact hstop h
      | str text =>
        have hstr : List.IsChain MayFollow (t :: (pre ++ [.str text])) :=
          isChain_concat hpre fun y _ => trivial
        have hstrLast : ∀ z ∈ (t :: (pre ++ [.str text])).getLast?, Ends z := by
          intro z hz
          have hz' : z = .str text := by
            simpa [List.getLast?_cons, eq_comm] using hz
          exact .inl ⟨text, hz'⟩
        cases ts with
        | nil =>
          have hrun : ftsPhrases (.and acc (.phrase text false)) [] = some (q, rest) := h
          obtain ⟨more, hts, hmore, hmoreLast⟩ :=
            ih 0 (by simp) hrun hstr hstrLast rfl
          exact ⟨.str text :: more, by rw [List.cons_append, ← hts],
            by simpa using hmore, by simpa using hmoreLast⟩
        | cons s' ts =>
          by_cases hs' : s' = .star
          · subst hs'
            have hstar : List.IsChain MayFollow (t :: (pre ++ [.str text] ++ [.star])) := by
              refine isChain_concat hstr fun y hy => ?_
              have hy' : y = .str text := by simpa [List.getLast?_cons, eq_comm] using hy
              exact ⟨text, hy'⟩
            have hstarLast : ∀ z ∈ (t :: (pre ++ [.str text] ++ [.star])).getLast?, Ends z := by
              intro z hz
              have hz' : z = .star := by
                simpa [List.getLast?_append, List.getLast?_cons, eq_comm] using hz
              exact .inr (.inl hz')
            have hrun : ftsPhrases (.and acc (.phrase text true)) ts = some (q, rest) := h
            obtain ⟨more, hts, hmore, hmoreLast⟩ :=
              ih ts.length (by simp only [List.length_cons]; omega) hrun hstar hstarLast rfl
            exact ⟨.str text :: .star :: more, by rw [hts]; rfl,
              by simpa using hmore, by simpa using hmoreLast⟩
          · have hrun : ftsPhrases (.and acc (.phrase text false)) (s' :: ts) =
                some (q, rest) := by
              cases s' <;> first | exact h | exact absurd rfl hs'
            obtain ⟨more, hts, hmore, hmoreLast⟩ :=
              ih (s' :: ts).length (by simp) hrun hstr hstrLast rfl
            exact ⟨.str text :: more, by rw [hts]; rfl,
              by simpa using hmore, by simpa using hmoreLast⟩

theorem ftsOperand_placed {inner : Parser FtsToken FtsQuery}
    (hinner : Placed MayFollow Starts Ends inner) :
    Placed MayFollow Starts Ends (ftsOperand inner) := by
  intro ts q rest h
  cases ts with
  | nil => cases h
  | cons s ts =>
    cases s with
    | star | and | or | not | closing => cases h
    | str text =>
      have hone : ∀ z ∈ ([.str text] : List FtsToken).getLast?, Ends z :=
        fun z hz => .inl ⟨text, by simpa [eq_comm] using hz⟩
      by_cases hstar : ∃ ts', ts = .star :: ts'
      · obtain ⟨ts', rfl⟩ := hstar
        have hrun : ftsPhrases (.phrase text true) ts' = some (q, rest) := h
        have hpair : List.IsChain MayFollow [.str text, .star] :=
          List.isChain_pair.mpr ⟨text, rfl⟩
        obtain ⟨more, rfl, hmore, hlast⟩ := ftsPhrases_placed hrun hpair
          (fun z hz => .inr (.inl (by simpa [eq_comm] using hz)))
        exact ⟨.str text, .star :: more, rfl, .inl ⟨text, rfl⟩, hmore, hlast⟩
      · have hrun : ftsPhrases (.phrase text false) ts = some (q, rest) := by
          cases ts with
          | nil => exact h
          | cons s' ts => cases s' <;> first | exact h | exact absurd ⟨_, rfl⟩ hstar
        have hsingle : List.IsChain MayFollow [.str text] := List.isChain_singleton _
        obtain ⟨more, rfl, hmore, hlast⟩ := ftsPhrases_placed hrun hsingle hone
        exact ⟨.str text, more, rfl, .inl ⟨text, rfl⟩, hmore, hlast⟩
    | opening =>
      cases hread : inner ts with
      | none => simp [ftsOperand, hread] at h
      | some result =>
        obtain ⟨q', rest'⟩ := result
        cases rest' with
        | nil => simp [ftsOperand, hread] at h
        | cons s' rest' =>
          cases s' with
          | str | star | and | or | not | opening => simp [ftsOperand, hread] at h
          | closing =>
            simp only [ftsOperand, hread] at h
            cases h
            obtain ⟨t, pre, rfl, hstart, hpre, hlast⟩ := hinner ts q _ hread
            refine ⟨.opening, t :: pre ++ [.closing], by simp, .inr rfl, ?_, ?_⟩
            · refine List.isChain_cons_cons.mpr ⟨mayFollow_of_starts hstart, ?_⟩
              exact isChain_concat hpre hlast
            · intro z hz
              refine .inr (.inr ?_)
              simpa [List.getLast?_append, List.getLast?_cons, eq_comm] using hz

theorem ftsExpr_placed (n : ℕ) : Placed MayFollow Starts Ends (ftsExpr n) := by
  induction n with
  | zero =>
    intro ts q rest h
    cases h
  | succ n ih =>
    have hright : ∀ o t : FtsToken, Starts t → MayFollow o t := fun o t => mayFollow_of_starts
    refine chain_placed (chain_placed (chain_placed (ftsOperand_placed ih) ?_ ?_) ?_ ?_) ?_ ?_
    · intro z o hz ho
      cases o <;> simp [ftsNot] at ho
      exact hz
    · exact fun o t _ ht => hright o t ht
    · intro z o hz ho
      cases o <;> simp [ftsAnd] at ho
      exact hz
    · exact fun o t _ ht => hright o t ht
    · intro z o hz ho
      cases o <;> simp [ftsOr] at ho
      exact hz
    · exact fun o t _ ht => hright o t ht

theorem ftsParse_placed {ts : List FtsToken} {q : FtsQuery} (h : ftsParse ts = some q) :
    (∀ t ∈ ts.head?, Starts t) ∧ List.IsChain MayFollow ts := by
  unfold ftsParse at h
  cases hread : ftsExpr (ts.length + 1) ts with
  | none => simp [hread] at h
  | some result =>
    obtain ⟨q', rest⟩ := result
    cases rest with
    | cons t rest => simp [hread] at h
    | nil =>
      obtain ⟨t, pre, hts, hstart, hchain, -⟩ := ftsExpr_placed _ ts q' [] hread
      rw [List.append_nil] at hts
      rw [hts]
      refine ⟨fun t' ht' => ?_, hchain⟩
      rw [List.head?_cons, Option.mem_some_iff] at ht'
      exact ht' ▸ hstart

/-- The tokens of a group, with what is in front of them. -/
theorem exists_ftsTokens {q : Query u} {g : List (Item u)} (hg : g ∈ q.groups) :
    ∃ before behind, q.ftsTokens = before ++ groupTokens g ++ behind ∧
      (before = [] ∨ before.getLast? = some .or) := by
  rcases List.mem_cons.mp hg with rfl | hg
  · exact ⟨[], _, rfl, .inl rfl⟩
  · obtain ⟨l, hl, rfl⟩ := List.mem_map.mp hg
    obtain ⟨l₁, l₂, hlater⟩ := List.append_of_mem hl
    refine ⟨groupTokens q.first ++ (l₁.flatMap fun g => .or :: groupTokens g.2) ++ [.or],
      l₂.flatMap fun g => .or :: groupTokens g.2, ?_, .inr (by simp)⟩
    rw [Query.ftsTokens, hlater]
    simp

/-- FTS5 can read only what is well placed. -/
theorem wellPlaced_of_finds {q : Query u} {doc : List Str}
    (h : fts5Finds u q.text doc = true) : q.WellPlaced := by
  obtain ⟨e, hparse⟩ : ∃ e, ftsParse q.ftsTokens = some e := by
    cases hparse : ftsParse q.ftsTokens with
    | none => simp [fts5Finds, ftsMatches, ftsLex_toFts5, hparse] at h
    | some e => exact ⟨e, rfl⟩
  obtain ⟨hhead, hchain⟩ := ftsParse_placed hparse
  refine ⟨fun g hg => ?_, fun g hg i hi => ?_⟩
  · obtain ⟨before, after, htokens, hbefore⟩ := exists_ftsTokens hg
    rw [htokens] at hhead hchain
    cases g with
    | nil =>
      obtain ⟨i, hi, -⟩ := q.asks [] hg
      cases hi
    | cons i g =>
      cases hi : i.positive with
      | true => exact ⟨i, rfl, hi⟩
      | false =>
        have htokens' : groupTokens (i :: g) = .not :: (i.ftsNamed ++ groupTokens g) := by
          simp [groupTokens, Item.ftsTokens, hi]
        rw [htokens'] at hhead hchain
        rcases hbefore with rfl | hlast
        · rcases hhead .not rfl with ⟨text, h⟩ | h <;> cases h
        · rw [List.append_assoc] at hchain
          have hstep := (List.isChain_append.mp hchain).2.2 .or hlast .not rfl
          rcases hstep with ⟨text, h⟩ | h | h <;> cases h
  · cases hreserved : i.reserved with
    | false => rfl
    | true =>
      obtain ⟨before, after, htokens, -⟩ := exists_ftsTokens hg
      obtain ⟨g₁, g₂, rfl⟩ := List.append_of_mem hi
      obtain ⟨kw, hkw, hnamed⟩ : ∃ kw, (∀ text, kw ≠ .str text) ∧ i.ftsNamed = [kw, .star] := by
        have hbare : ∀ w : Word u, (Item.starts w).reserved = true →
            ∀ text, bareword w.text ≠ .str text := by
          intro w hw text
          simp only [Item.reserved, Bool.or_eq_true, beq_iff_eq] at hw
          rcases hw with (hw | hw) | hw <;> rw [hw] <;> simp [bareword]
        cases i with
        | starts w => exact ⟨_, hbare w hreserved, rfl⟩
        | withoutStarts w => exact ⟨_, hbare w hreserved, rfl⟩
        | word | phrase | without => cases hreserved
      have hitem : ∃ l, i.ftsTokens = l ++ [kw, .star] := by
        unfold Item.ftsTokens
        rw [hnamed]
        split
        · exact ⟨[], rfl⟩
        · exact ⟨[.not], rfl⟩
      obtain ⟨l, hitem⟩ := hitem
      have hstream : q.ftsTokens =
          (before ++ groupTokens g₁ ++ l) ++ kw :: .star :: (groupTokens g₂ ++ after) := by
        rw [htokens]
        simp [groupTokens, hitem]
      rw [hstream] at hchain
      have hpair := (List.isChain_append.mp hchain).2.1
      obtain ⟨text, htext⟩ := (List.isChain_cons_cons.mp hpair).1
      exact absurd htext (hkw text)

end CwStation.QueryParser
