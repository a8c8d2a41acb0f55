import CwStation.Verification.Python.Strings
import CwStation.Verification.Search.Fts5

/-! # Which translations FTS5 can read

Quotes decide how far a part of the translation can be read by itself: what holds an even
number of them is read up to the blank behind it. The parts are then expressions with an
operator in front of some of them. -/

namespace CwStation.QueryParser

open TextSearch Operators

variable {u : Unicode}

/-! ## FTS5 expressions -/

def ftsRole : FtsToken → Role
  | .str _ => .operand
  | .star => .suffix
  | .and | .or | .not => .binary
  | .opening | .closing => .stray

/-- The text is an expression: barewords and balanced strings, with a star only behind one of
them and operators only between two. -/
def FtsValid (text : Str) : Prop :=
  ∃ ts, ftsLex text = some ts ∧ Expression True ftsRole ts

/-- A minus with something to exclude. -/
def isExclusion (token : Str) : Bool := token.head? == some '-' && decide (1 < token.length)

/-- The token without the minus of an exclusion. -/
def named (token : Str) : Str := if isExclusion token then token.tail else token

/-- The words that FTS5 takes for operators. -/
def operatorWords : List Str := ["AND".toList, "OR".toList, "NOT".toList]

/-- What is left as it was typed can be read: a prefix word without a dash that is no operator,
and a quoted text that is an expression. -/
structure Sound (u : Unicode) (token : Str) : Prop where
  word : isPrefixWord u (named token) = true →
    '-' ∉ named token ∧ (named token).dropLast ∉ operatorWords
  quoted : isQuoted (named token) = true → FtsValid (named token)

/-- Each `OR` has a token on either side, and neither the first token nor the one behind an
`OR` is an exclusion. The flag says that an operand is due. -/
def operatorsPlaced (u : Unicode) : Bool → List Str → Bool
  | due, [] => !due
  | due, token :: tokens =>
      if isOr u token then !due && operatorsPlaced u true tokens
      else !(due && isExclusion token) && operatorsPlaced u false tokens

/-- An odd number of quotes. -/
def oddQuotes : Str → Bool
  | [] => false
  | c :: s => (c == '"') ^^ oddQuotes s

/-- A token that is left as it was typed, with a quote that it does not close. -/
def leavesOpen (u : Unicode) (token : Str) : Bool :=
  !isOr u token && isQuoted (named token) && oddQuotes (named token)

/-! ### Quotes -/

theorem oddQuotes_append (a b : Str) : oddQuotes (a ++ b) = (oddQuotes a ^^ oddQuotes b) := by
  induction a with
  | nil => simp [oddQuotes]
  | cons c a ih => simp [oddQuotes, ih]

theorem oddQuotes_of_not_mem {s : Str} (h : '"' ∉ s) : oddQuotes s = false := by
  induction s with
  | nil => rfl
  | cons c s ih =>
    rw [List.mem_cons, not_or] at h
    simp [oddQuotes, ih h.2, Ne.symm h.1]

/-- The reader is inside a string. -/
def inside : FtsState → Bool
  | .quoted _ => true
  | _ => false

theorem inside_ftsStart {c : Char} {ts : List FtsToken} {state : FtsState}
    (h : ftsStart c = some (ts, state)) : inside state = (c == '"') := by
  by_cases hblank : c = ' ' ∨ c = '\t' ∨ c = '\n' ∨ c = '\r'
  · simp only [ftsStart, hblank, if_true, Option.some.injEq, Prod.mk.injEq] at h
    rw [← h.2]
    rcases hblank with rfl | rfl | rfl | rfl <;> rfl
  by_cases hquote : c = '"'
  · subst hquote
    simp only [ftsStart, hblank, if_false, if_true, Option.some.injEq, Prod.mk.injEq] at h
    rw [← h.2]
    rfl
  have hne : (c == '"') = false := by simpa using hquote
  rw [hne]
  simp only [ftsStart, hblank, hquote, if_false] at h
  split at h
  · cases h
    rfl
  split at h
  · cases h
    rfl
  split at h
  · cases h
    rfl
  split at h
  · cases h
    rfl
  · cases h

/-- Each quote takes the reader into a string or out of one. -/
theorem inside_ftsStep {s s' : FtsState} {c : Char} {ts : List FtsToken}
    (h : ftsStep s c = some (ts, s')) : inside s' = (inside s ^^ (c == '"')) := by
  cases s with
  | between => simpa [inside] using inside_ftsStart h
  | bare word =>
    by_cases hbare : isBareChar c = true
    · have hne : (c == '"') = false := by
        rw [beq_eq_false_iff_ne]
        rintro rfl
        exact absurd hbare (by decide)
      simp only [ftsStep, hbare, if_true, Option.some.injEq, Prod.mk.injEq] at h
      rw [← h.2, hne]
      rfl
    · simp only [ftsStep, hbare, if_false, Option.map_eq_some_iff, Bool.false_eq_true] at h
      obtain ⟨next, hnext, hts⟩ := h
      simp only [Prod.mk.injEq] at hts
      rw [← hts.2]
      simpa [inside] using inside_ftsStart hnext
  | quoted text =>
    by_cases hc : c = '"'
    · simp only [ftsStep, hc, if_true, Option.some.injEq, Prod.mk.injEq] at h
      rw [← h.2, hc]
      rfl
    · simp only [ftsStep, hc, if_false, Option.some.injEq, Prod.mk.injEq] at h
      have hne : (c == '"') = false := by simpa using hc
      rw [← h.2, hne]
      rfl
  | closed text =>
    by_cases hc : c = '"'
    · simp only [ftsStep, hc, if_true, Option.some.injEq, Prod.mk.injEq] at h
      rw [← h.2, hc]
      rfl
    · simp only [ftsStep, hc, if_false, Option.map_eq_some_iff] at h
      obtain ⟨next, hnext, hts⟩ := h
      simp only [Prod.mk.injEq] at hts
      rw [← hts.2]
      simpa [inside] using inside_ftsStart hnext

theorem ftsLexFrom_cons (s : FtsState) (c : Char) (cs : Str) :
    ftsLexFrom s (c :: cs) =
      (ftsStep s c).bind fun next => (ftsLexFrom next.2 cs).map (next.1 ++ ·) := by
  rw [ftsLexFrom]
  cases ftsStep s c <;> rfl

/-- What is read has all of its quotes closed. -/
theorem even_of_ftsLexFrom {s : FtsState} {text : Str} {ts : List FtsToken}
    (h : ftsLexFrom s text = some ts) : (inside s ^^ oddQuotes text) = false := by
  induction text generalizing s ts with
  | nil => cases s <;> simp_all [ftsLexFrom, ftsEnd, inside, oddQuotes]
  | cons c text ih =>
    rw [ftsLexFrom_cons, Option.bind_eq_some_iff] at h
    obtain ⟨next, hnext, hrest⟩ := h
    obtain ⟨us, hus, -⟩ := Option.map_eq_some_iff.mp hrest
    have hstep := ih hus
    rw [inside_ftsStep hnext] at hstep
    rwa [oddQuotes, ← Bool.xor_assoc]

/-- Outside of a string a blank ends what was being read. -/
theorem ftsLexFrom_outside {s : FtsState} (h : inside s = false) (rest : Str) :
    ftsLexFrom s (' ' :: rest) =
      (ftsEnd s).bind fun ts => (ftsLexFrom .between rest).map (ts ++ ·) := by
  have hstop : ∀ {ts : List FtsToken}, ftsEnd s = some ts → ftsStep s ' ' = some (ts, .between) →
      ftsLexFrom s (' ' :: rest) =
        (ftsEnd s).bind fun ts => (ftsLexFrom .between rest).map (ts ++ ·) := by
    intro ts hend hblank
    rw [ftsLexFrom_stop hend hblank (by simp), ftsLexFrom_blank, hend]
    rfl
  cases s with
  | between => exact hstop rfl rfl
  | bare word => exact hstop rfl rfl
  | quoted text => cases h
  | closed text => exact hstop rfl rfl

/-- A text with its quotes closed is read up to the blank behind it. -/
theorem ftsLexFrom_blank_behind {s : FtsState} {text : Str}
    (h : (inside s ^^ oddQuotes text) = false) (rest : Str) :
    ftsLexFrom s (text ++ ' ' :: rest) =
      (ftsLexFrom s text).bind fun ts => (ftsLexFrom .between rest).map (ts ++ ·) := by
  induction text generalizing s with
  | nil => exact ftsLexFrom_outside (by simpa [oddQuotes] using h) rest
  | cons c text ih =>
    rw [List.cons_append, ftsLexFrom_cons, ftsLexFrom_cons]
    cases hnext : ftsStep s c with
    | none => rfl
    | some next =>
      have hstep : (inside next.2 ^^ oddQuotes text) = false := by
        rw [inside_ftsStep hnext, Bool.xor_assoc]
        exact h
      simp only [Option.bind_some, ih hstep]
      cases ftsLexFrom next.2 text <;> cases ftsLexFrom .between rest <;> simp

/-! ### What one token is read as -/

/-- The first thing behind a quote is a string. -/
theorem head_of_quoted {s : FtsState} {acc text : Str} (hs : s = .quoted acc ∨ s = .closed acc)
    {ts : List FtsToken} (h : ftsLexFrom s text = some ts) :
    ∃ word more, ts = .str word :: more := by
  induction text generalizing s acc ts with
  | nil =>
    rcases hs with rfl | rfl
    · simp [ftsLexFrom, ftsEnd] at h
    · simp only [ftsLexFrom, ftsEnd, Option.some.injEq] at h
      exact ⟨acc, [], h.symm⟩
  | cons c text ih =>
    rw [ftsLexFrom_cons, Option.bind_eq_some_iff] at h
    obtain ⟨next, hnext, hrest⟩ := h
    obtain ⟨us, hus, rfl⟩ := Option.map_eq_some_iff.mp hrest
    rcases hs with rfl | rfl
    · by_cases hc : c = '"'
      · simp only [ftsStep, hc, if_true, Option.some.injEq] at hnext
        subst hnext
        exact ih (.inr rfl) hus
      · simp only [ftsStep, hc, if_false, Option.some.injEq] at hnext
        subst hnext
        exact ih (.inl rfl) hus
    · by_cases hc : c = '"'
      · simp only [ftsStep, hc, if_true, Option.some.injEq] at hnext
        subst hnext
        exact ih (.inl rfl) hus
      · simp only [ftsStep, hc, if_false, Option.map_eq_some_iff] at hnext
        obtain ⟨start, -, rfl⟩ := hnext
        exact ⟨acc, start.1 ++ us, rfl⟩

/-- What ends in a quote ends in a string. -/
theorem last_of_quote {s : FtsState} {text : Str} {ts : List FtsToken}
    (h : ftsLexFrom s (text ++ ['"']) = some ts) : ∃ us word, ts = us ++ [.str word] := by
  induction text generalizing s ts with
  | nil =>
    rw [List.nil_append, ftsLexFrom_cons, Option.bind_eq_some_iff] at h
    obtain ⟨next, hnext, hrest⟩ := h
    obtain ⟨us, hus, rfl⟩ := Option.map_eq_some_iff.mp hrest
    have hinside := inside_ftsStep hnext
    obtain ⟨before, state⟩ := next
    cases state with
    | closed word =>
      simp only [ftsLexFrom, ftsEnd, Option.some.injEq] at hus
      exact ⟨before, word, by rw [← hus]⟩
    | quoted word => simp [ftsLexFrom, ftsEnd] at hus
    | between => cases s <;> simp [ftsStep, ftsStart, isBareChar] at hnext
    | bare word => cases s <;> simp [ftsStep, ftsStart, isBareChar] at hnext
  | cons c text ih =>
    rw [List.cons_append, ftsLexFrom_cons, Option.bind_eq_some_iff] at h
    obtain ⟨next, -, hrest⟩ := h
    obtain ⟨us, hus, rfl⟩ := Option.map_eq_some_iff.mp hrest
    obtain ⟨vs, word, rfl⟩ := ih hus
    exact ⟨next.1 ++ vs, word, by simp⟩

theorem isBareChar_of_isWord {c : Char} (h : u.isWord c = true) : isBareChar c = true := by
  by_cases hascii : c.toNat < 128
  · rw [u.isWord_ascii c hascii, Bool.or_eq_true] at h
    rcases h with h | h <;> simp [isBareChar, h]
  · simp [isBareChar, not_lt.mp hascii]

/-- A dash ends a bareword, and nothing begins with it. -/
theorem ftsLexFrom_dash {s : FtsState} (hs : s = .between ∨ ∃ word, s = .bare word) {stem : Str}
    (hstem : ∀ c ∈ stem, isBareChar c = true ∨ c = '-') (hdash : '-' ∈ stem) (rest : Str) :
    ftsLexFrom s (stem ++ rest) = none := by
  induction stem generalizing s with
  | nil => cases hdash
  | cons c stem ih =>
    rw [List.cons_append, ftsLexFrom_cons]
    by_cases hc : isBareChar c = true
    · have hne : '-' ≠ c := by
        rintro rfl
        exact absurd hc (by decide)
      have htail : ∀ word, ftsLexFrom (.bare word) (stem ++ rest) = none := fun word =>
        ih (.inr ⟨word, rfl⟩) (fun d hd => hstem d (.tail _ hd))
          ((List.mem_cons.mp hdash).resolve_left hne)
      rcases hs with rfl | ⟨word, rfl⟩
      · simp [ftsStep, ftsStart_bare hc, htail]
      · simp [ftsStep, hc, htail]
    · have hminus : c = '-' := (hstem c (.head _)).resolve_left hc
      subst hminus
      rcases hs with rfl | ⟨word, rfl⟩ <;> simp [ftsStep, ftsStart, isBareChar]

theorem isPrefixWord_shape {w : Str} (h : isPrefixWord u w = true) :
    w = w.dropLast ++ ['*'] ∧ w.dropLast ≠ [] ∧
      ∀ c ∈ w.dropLast, isBareChar c = true ∨ c = '-' := by
  simp only [isPrefixWord, Bool.and_eq_true, Bool.not_eq_true', List.isEmpty_eq_false_iff,
    List.all_eq_true, Bool.or_eq_true, beq_iff_eq] at h
  obtain ⟨⟨hlast, hne⟩, hstem⟩ := h
  exact ⟨(List.dropLast_append_getLast? _ hlast).symm, hne,
    fun c hc => (hstem c hc).imp_left isBareChar_of_isWord⟩

/-- A prefix word is read as a bareword and its star. -/
theorem ftsLex_prefixWord {w : Str} (h : isPrefixWord u w = true) {ts : List FtsToken}
    (hlex : ftsLex w = some ts) : ts = [bareword w.dropLast, .star] := by
  obtain ⟨hw, hne, hstem⟩ := isPrefixWord_shape h
  by_cases hdash : '-' ∈ w.dropLast
  · rw [ftsLex, hw, ftsLexFrom_dash (.inl rfl) hstem hdash] at hlex
    cases hlex
  · have hbare : ∀ c ∈ w.dropLast, isBareChar c = true := fun c hc =>
      (hstem c hc).resolve_right fun hminus => hdash (hminus ▸ hc)
    have hread := lexes_star hne hbare [] (by simp)
    rw [List.append_nil, ← hw] at hread
    rw [ftsLex, hread] at hlex
    simpa [ftsLexFrom, ftsEnd] using hlex.symm

/-- How far a reader of an expression gets. -/
abbrev ftsReach (p : Place) (ts : List FtsToken) : Option Place := reach True ftsRole p ts

theorem ftsValid_iff {text : Str} :
    FtsValid text ↔ ∃ ts q, ftsLex text = some ts ∧ ftsReach .before ts = some q ∧ q ≠ .before := by
  have hflat : ∀ ts : List FtsToken, ∀ t ∈ ts, ftsRole t ≠ .opening ∧ ftsRole t ≠ .closing := by
    intro ts t _
    cases t <;> simp [ftsRole]
  constructor
  · intro h
    obtain ⟨ts, hts, hexpr⟩ := h
    obtain ⟨q, hq⟩ := (expression_iff (hflat ts)).mp hexpr
    exact ⟨ts, q, hts, hq⟩
  · intro h
    obtain ⟨ts, q, hts, hq⟩ := h
    exact ⟨ts, hts, (expression_iff (hflat ts)).mpr ⟨q, hq⟩⟩

/-- What a token's own text is read as: it can stand wherever an operand can begin, and an
operand is complete behind it. -/
structure Segment (ts : List FtsToken) : Prop where
  anywhere : ∀ p, ftsReach p ts = ftsReach .before ts
  complete : ∀ p q, ftsReach p ts = some q → q ≠ .before

theorem Segment.str (text : Str) : Segment [.str text] where
  anywhere p := by cases p <;> rfl
  complete p q h := by
    cases p <;>
    · cases h
      decide

theorem Segment.of_quoted {word word' : Str} {us vs : List FtsToken}
    (hhead : us ++ [.str word'] = .str word :: vs) : Segment (us ++ [.str word']) where
  anywhere p := by
    rw [hhead]
    cases p <;> rfl
  complete p q h := by
    rw [ftsReach, reach_append, Option.bind_eq_some_iff] at h
    obtain ⟨r, -, hlast⟩ := h
    exact (Segment.str word').complete r q hlast

theorem bareword_cases (w : Str) : (∃ text, bareword w = .str text) ∨ IsOperator (bareword w) := by
  unfold bareword
  split
  · exact .inr (.inl rfl)
  split
  · exact .inr (.inr (.inl rfl))
  split
  · exact .inr (.inr (.inr rfl))
  · exact .inl ⟨w, rfl⟩

theorem Segment.of_prefixWord (w : Str) : Segment [bareword w, .star] := by
  rcases bareword_cases w with ⟨text, htext⟩ | hop
  · rw [htext]
    exact
      { anywhere := fun p => by cases p <;> rfl
        complete := fun p q h => by
          cases p <;>
          · cases h
            decide }
  · have hnone : ∀ p, ftsReach p [bareword w, .star] = none := by
      intro p
      rcases hop with hop | hop | hop <;> rw [hop] <;> cases p <;> rfl
    exact
      { anywhere := fun p => by rw [hnone, hnone]
        complete := fun p q h => by rw [hnone] at h; cases h }

/-- Every token's own text is a segment, if it can be read at all. -/
theorem segment_quoteForFts5 {w : Str} {ts : List FtsToken}
    (hlex : ftsLex (quoteForFts5 u w) = some ts) : Segment ts := by
  by_cases hquoted : isQuoted w = true
  · rw [quoteForFts5, if_pos hquoted] at hlex
    rw [isQuoted, Bool.and_eq_true, beq_iff_eq, beq_iff_eq] at hquoted
    obtain ⟨text, rfl⟩ : ∃ text, w = '"' :: text := List.head?_eq_some_iff.mp hquoted.1
    have hlast := (List.dropLast_append_getLast? _ hquoted.2).symm
    have hopen : ftsLexFrom .between ('"' :: text) =
        (ftsLexFrom (.quoted []) text).map ([] ++ ·) := by
      rw [ftsLexFrom_cons]
      rfl
    have hread := hlex
    rw [ftsLex, hopen] at hread
    obtain ⟨vs, hvs, rfl⟩ := Option.map_eq_some_iff.mp hread
    obtain ⟨word, more, rfl⟩ := head_of_quoted (.inl rfl) hvs
    rw [ftsLex, hlast] at hlex
    obtain ⟨us, word', hus⟩ := last_of_quote hlex
    rw [hus]
    exact Segment.of_quoted hus.symm
  · by_cases hprefix : isPrefixWord u w = true
    · rw [quoteForFts5, if_neg hquoted, if_pos hprefix] at hlex
      rw [ftsLex_prefixWord hprefix hlex]
      exact Segment.of_prefixWord _
    · have hread := @lexes_quoted (w.filter (· ≠ '"')) (by simp) [] (by simp)
      rw [quoteForFts5, if_neg hquoted, if_neg hprefix] at hlex
      rw [List.append_nil] at hread
      rw [ftsLex, hread] at hlex
      simp only [ftsLexFrom, ftsEnd, Option.map_some, Option.some.injEq, List.append_nil] at hlex
      rw [← hlex]
      exact Segment.str _

theorem bareword_eq_str_iff {w : Str} : (∃ text, bareword w = .str text) ↔ w ∉ operatorWords := by
  unfold bareword operatorWords
  by_cases hand : w = "AND".toList
  · simp [hand]
  by_cases hor : w = "OR".toList
  · simp [hor]
  by_cases hnot : w = "NOT".toList
  · simp [hnot]
  · have hin : w ∉ ["AND".toList, "OR".toList, "NOT".toList] := by
      rw [List.mem_cons, List.mem_cons, List.mem_singleton]
      rintro (h | h | h)
      · exact hand h
      · exact hor h
      · exact hnot h
    rw [if_neg hand, if_neg hor, if_neg hnot]
    exact ⟨fun _ => hin, fun _ => ⟨w, rfl⟩⟩

/-- A prefix word can be read exactly when it has no dash and is no operator. -/
theorem reads_prefixWord_iff {w : Str} (h : isPrefixWord u w = true) :
    (∃ ts q, ftsLex w = some ts ∧ ftsReach .before ts = some q) ↔
      '-' ∉ w ∧ w.dropLast ∉ operatorWords := by
  obtain ⟨hw, hne, hstem⟩ := isPrefixWord_shape h
  constructor
  · intro hread
    obtain ⟨ts, q, hts, hq⟩ := hread
    have hdash : '-' ∉ w := by
      intro hmem
      rw [hw, List.mem_append] at hmem
      have hmem := hmem.resolve_right (by decide)
      rw [ftsLex, hw, ftsLexFrom_dash (.inl rfl) hstem hmem] at hts
      cases hts
    refine ⟨hdash, bareword_eq_str_iff.mp ?_⟩
    rw [ftsLex_prefixWord h hts] at hq
    rcases bareword_cases w.dropLast with hstr | hop
    · exact hstr
    · rcases hop with hop | hop | hop <;>
      · rw [hop] at hq
        cases hq
  · intro hplain
    obtain ⟨hdash, hop⟩ := hplain
    have hbare : ∀ c ∈ w.dropLast, isBareChar c = true := fun c hc =>
      (hstem c hc).resolve_right fun hminus => hdash (hminus ▸ List.dropLast_subset _ hc)
    have hread := lexes_star hne hbare [] (by simp)
    rw [List.append_nil, ← hw] at hread
    obtain ⟨text, htext⟩ := bareword_eq_str_iff.mpr hop
    exact ⟨_, .sealed, hread, by rw [htext]; rfl⟩

/-- A token can be read as an operand exactly when it is sound. -/
theorem sound_iff {token : Str} :
    Sound u token ↔ ∃ ts q, ftsLex (quoteForFts5 u (named token)) = some ts ∧
      ftsReach .before ts = some q := by
  by_cases hquoted : isQuoted (named token) = true
  · have hword : ¬isPrefixWord u (named token) = true := by
      intro hprefix
      rw [isQuoted, Bool.and_eq_true, beq_iff_eq, beq_iff_eq] at hquoted
      rw [isPrefixWord, hquoted.2] at hprefix
      cases hprefix
    have hquote : quoteForFts5 u (named token) = named token := by rw [quoteForFts5, if_pos hquoted]
    constructor
    · intro h
      obtain ⟨ts, q, hts, hq, -⟩ := ftsValid_iff.mp (h.quoted hquoted)
      exact ⟨ts, q, hquote.symm ▸ hts, hq⟩
    · intro h
      obtain ⟨ts, q, hts, hq⟩ := h
      refine ⟨fun hprefix => absurd hprefix hword, fun _ => ftsValid_iff.mpr ?_⟩
      exact ⟨ts, q, hquote ▸ hts, hq, (segment_quoteForFts5 hts).complete _ _ hq⟩
  by_cases hprefix : isPrefixWord u (named token) = true
  · have hquote : quoteForFts5 u (named token) = named token := by
      rw [quoteForFts5, if_neg hquoted, if_pos hprefix]
    rw [hquote, reads_prefixWord_iff hprefix]
    constructor
    · intro h
      exact h.word hprefix
    · intro h
      exact ⟨fun _ => h, fun hq => absurd hq hquoted⟩
  · have hread := @lexes_quoted ((named token).filter (· ≠ '"')) (by simp) [] (by simp)
    rw [List.append_nil] at hread
    have hquote : quoteForFts5 u (named token) =
        '"' :: (named token).filter (· ≠ '"') ++ ['"'] := by
      rw [quoteForFts5, if_neg hquoted, if_neg hprefix]
    rw [hquote]
    constructor
    · intro _
      exact ⟨_, .behind, hread, rfl⟩
    · intro _
      exact ⟨fun h => absurd h hprefix, fun h => absurd h hquoted⟩

/-! ### The parts one after another -/

/-- The text is read as the rest of an expression. -/
def Completes (p : Place) (text : Str) : Prop :=
  ∃ ts q, ftsLex text = some ts ∧ ftsReach p ts = some q ∧ q ≠ .before

theorem ftsLex_joinBlank {part : Str} (heven : oddQuotes part = false) (parts : List Str) :
    ftsLex (joinBlank (part :: parts)) =
      (ftsLex part).bind fun ts => (ftsLex (joinBlank parts)).map (ts ++ ·) := by
  cases parts with
  | nil =>
    have hone : joinBlank [part] = part := by simp [joinBlank]
    rw [hone]
    cases h : ftsLex part <;> simp [joinBlank, ftsLex, ftsLexFrom, ftsEnd]
  | cons next parts =>
    have hjoin : joinBlank (part :: next :: parts) =
        part ++ ' ' :: joinBlank (next :: parts) := by
      rw [joinBlank, intercalate_cons]
      simp [joinBlank]
    rw [hjoin]
    exact ftsLexFrom_blank_behind (by simpa [inside] using heven) _

theorem completes_joinBlank {part : Str} (heven : oddQuotes part = false) (parts : List Str)
    (p : Place) :
    Completes p (joinBlank (part :: parts)) ↔
      ∃ ts q, ftsLex part = some ts ∧ ftsReach p ts = some q ∧ Completes q (joinBlank parts) := by
  unfold Completes
  rw [ftsLex_joinBlank heven]
  constructor
  · intro h
    obtain ⟨ts, q, hts, hq, hne⟩ := h
    obtain ⟨us, hus, hmore⟩ := Option.bind_eq_some_iff.mp hts
    obtain ⟨vs, hvs, rfl⟩ := Option.map_eq_some_iff.mp hmore
    rw [ftsReach, reach_append, Option.bind_eq_some_iff] at hq
    obtain ⟨r, hr, hq⟩ := hq
    exact ⟨us, r, hus, hr, vs, q, hvs, hq, hne⟩
  · intro h
    obtain ⟨us, r, hus, hr, vs, q, hvs, hq, hne⟩ := h
    refine ⟨us ++ vs, q, by simp [hus, hvs], ?_, hne⟩
    rw [ftsReach, reach_append]
    exact Option.bind_eq_some_iff.mpr ⟨r, hr, hq⟩

theorem completes_nil (p : Place) : Completes p (joinBlank []) ↔ p ≠ .before := by
  constructor
  · intro h
    obtain ⟨ts, q, hts, hq, hne⟩ := h
    cases hts
    cases hq
    exact hne
  · intro h
    exact ⟨[], p, rfl, rfl, h⟩

theorem completes_or (parts : List Str) (p : Place) :
    Completes p (joinBlank ("OR".toList :: parts)) ↔
      p ≠ .before ∧ Completes .before (joinBlank parts) := by
  have hread : ftsLex "OR".toList = some [.or] := by decide
  have hreach : ∀ q, ftsReach p [.or] = some q ↔ p ≠ .before ∧ q = .before := by
    intro q
    cases p <;> cases q <;> decide
  rw [completes_joinBlank (by decide)]
  simp only [hread, Option.some.injEq, exists_and_left, exists_eq_left', hreach]
  simp

/-- An operand, with what has to be behind it. -/
theorem completes_operand {token : Str} (heven : oddQuotes (quoteForFts5 u (named token)) = false)
    {parts : List Str} {rest : Prop}
    (hrest : ∀ q, q ≠ .before → (Completes q (joinBlank parts) ↔ rest)) (p : Place) :
    Completes p (joinBlank (quoteForFts5 u (named token) :: parts)) ↔ Sound u token ∧ rest := by
  rw [completes_joinBlank heven, sound_iff]
  constructor
  · intro h
    obtain ⟨ts, q, hts, hq, hmore⟩ := h
    have hsegment := segment_quoteForFts5 hts
    refine ⟨⟨ts, q, hts, hsegment.anywhere p ▸ hq⟩, ?_⟩
    exact (hrest q (hsegment.complete p q hq)).mp hmore
  · intro h
    obtain ⟨⟨ts, q, hts, hq⟩, hmore⟩ := h
    have hsegment := segment_quoteForFts5 hts
    refine ⟨ts, q, hts, (hsegment.anywhere p).trans hq, ?_⟩
    exact (hrest q (hsegment.complete _ q hq)).mpr hmore

theorem completes_not (part : Str) (parts : List Str) (heven : oddQuotes part = false) (p : Place) :
    Completes p (joinBlank (("NOT ".toList ++ part) :: parts)) ↔
      p ≠ .before ∧ Completes .before (joinBlank (part :: parts)) := by
  have hread : ftsLex ("NOT ".toList ++ part) = (ftsLex part).map (.not :: ·) := by
    have hblank := @ftsLexFrom_blank_behind .between "NOT".toList (by decide) part
    have hnot : ftsLexFrom .between "NOT".toList = some [.not] := by decide
    rw [hnot] at hblank
    exact hblank
  have hreach : ∀ ts, ftsReach p (.not :: ts) =
      if p = .before then none else ftsReach .before ts := by
    intro ts
    cases p <;> rfl
  rw [completes_joinBlank (by rw [oddQuotes_append, heven]; decide), completes_joinBlank heven]
  constructor
  · intro h
    obtain ⟨ts, q, hts, hq, hmore⟩ := h
    rw [hread, Option.map_eq_some_iff] at hts
    obtain ⟨us, hus, rfl⟩ := hts
    rw [hreach, Option.ite_none_left_eq_some] at hq
    exact ⟨hq.1, us, q, hus, hq.2, hmore⟩
  · intro h
    obtain ⟨hp, us, q, hus, hq, hmore⟩ := h
    refine ⟨.not :: us, q, by rw [hread, hus]; rfl, ?_, hmore⟩
    rw [hreach, if_neg hp, hq]

theorem fts5Part_eq (token : Str) :
    fts5Part u token =
      if isOr u token then "OR".toList
      else if isExclusion token then "NOT ".toList ++ quoteForFts5 u (named token)
      else quoteForFts5 u (named token) := by
  have hminus : isExclusion token = true ↔ token.head? = some '-' ∧ 1 < token.length := by
    rw [isExclusion, Bool.and_eq_true, beq_iff_eq, decide_eq_true_eq]
  unfold fts5Part named
  by_cases h : isExclusion token = true
  · simp only [h, hminus.mp h, and_self, if_true]
  · simp only [h, mt hminus.mpr h, if_false]
    simp

theorem oddQuotes_fts5Part (token : Str) (hor : isOr u token = false) :
    oddQuotes (fts5Part u token) = oddQuotes (quoteForFts5 u (named token)) := by
  rw [fts5Part_eq, if_neg (by simp [hor])]
  by_cases h : isExclusion token = true
  · rw [if_pos h, oddQuotes_append]
    simp [oddQuotes]
  · rw [if_neg h]

/-- The parts complete an expression exactly when each token is sound and the operators stand
where they may. -/
theorem completes_parts_iff {tokens : List Str}
    (heven : ∀ token ∈ tokens, oddQuotes (fts5Part u token) = false) (p : Place) :
    Completes p (joinBlank (tokens.map (fts5Part u))) ↔
      (∀ token ∈ tokens, isOr u token = false → Sound u token) ∧
        operatorsPlaced u (decide (p = .before)) tokens = true := by
  induction tokens generalizing p with
  | nil => simp [completes_nil, operatorsPlaced]
  | cons token tokens ih =>
    have hrest := ih fun t ht => heven t (.tail _ ht)
    rw [List.map_cons, fts5Part_eq token]
    by_cases hor : isOr u token = true
    · rw [if_pos hor, completes_or, hrest]
      simp only [List.forall_mem_cons, hor, Bool.true_eq_false, false_implies, true_and,
        operatorsPlaced, if_true, Bool.and_eq_true, decide_true]
      simp [and_left_comm]
    · have hnotOr : isOr u token = false := by simpa using hor
      have hquotes := heven token (.head _)
      rw [oddQuotes_fts5Part token hnotOr] at hquotes
      have hbehind : ∀ q, q ≠ .before → (Completes q (joinBlank (tokens.map (fts5Part u))) ↔
          (∀ token ∈ tokens, isOr u token = false → Sound u token) ∧
            operatorsPlaced u false tokens = true) := by
        intro q hq
        simpa [hq] using hrest q
      have hoperand := completes_operand hquotes hbehind
      rw [if_neg hor]
      by_cases hminus : isExclusion token = true
      · rw [if_pos hminus, completes_not _ _ hquotes, hoperand]
        simp [operatorsPlaced, hnotOr, hminus, and_assoc, and_left_comm]
      · rw [if_neg hminus, hoperand]
        simp [operatorsPlaced, hnotOr, hminus, and_assoc]

/-! ### Whole translations -/

theorem oddQuotes_wrapped {text : Str} (h : '"' ∉ text) :
    oddQuotes ('"' :: text ++ ['"']) = false := by
  simp [oddQuotes, oddQuotes_append, oddQuotes_of_not_mem h]

theorem not_mem_quote_of_isPrefixWord {w : Str} (h : isPrefixWord u w = true) : '"' ∉ w := by
  obtain ⟨hw, -, hstem⟩ := isPrefixWord_shape h
  rw [hw, List.mem_append, not_or]
  exact ⟨fun hmem => absurd (hstem '"' hmem) (by decide), by simp⟩

theorem oddQuotes_part (token : Str) : oddQuotes (fts5Part u token) = leavesOpen u token := by
  by_cases hor : isOr u token = true
  · rw [fts5Part_eq, if_pos hor]
    simp [leavesOpen, hor, oddQuotes]
  · have hnotOr : isOr u token = false := by simpa using hor
    rw [oddQuotes_fts5Part token hnotOr]
    unfold quoteForFts5
    by_cases hquoted : isQuoted (named token) = true
    · rw [if_pos hquoted]
      simp [leavesOpen, hnotOr, hquoted]
    · have hclosed : leavesOpen u token = false := by simp [leavesOpen, hquoted]
      rw [if_neg hquoted, hclosed]
      by_cases hprefix : isPrefixWord u (named token) = true
      · rw [if_pos hprefix]
        exact oddQuotes_of_not_mem (not_mem_quote_of_isPrefixWord hprefix)
      · rw [if_neg hprefix]
        exact oddQuotes_wrapped (by simp)

theorem joinBlank_cons (part : Str) (parts : List Str) :
    joinBlank (part :: parts) = part ++ if parts = [] then [] else ' ' :: joinBlank parts := by
  rw [joinBlank, intercalate_cons]
  cases parts <;> simp [joinBlank]

theorem oddQuotes_joinBlank (parts : List Str) :
    oddQuotes (joinBlank parts) = true ↔ parts.countP oddQuotes % 2 = 1 := by
  induction parts with
  | nil => simp [joinBlank, oddQuotes]
  | cons part parts ih =>
    have hjoin : oddQuotes (joinBlank (part :: parts)) =
        (oddQuotes part ^^ oddQuotes (joinBlank parts)) := by
      rw [joinBlank_cons, oddQuotes_append]
      by_cases hnil : parts = []
      · simp [hnil, oddQuotes, joinBlank]
      · simp [hnil, oddQuotes]
    rw [hjoin, List.countP_cons]
    cases oddQuotes part with
    | false => simpa using ih
    | true =>
      rw [Bool.true_xor, Bool.not_eq_true', ← Bool.not_eq_true, ih]
      simp only [if_true]
      omega

theorem fts5Part_ne (token : Str) : fts5Part u token ≠ [] := by
  have hquote : quoteForFts5 u (named token) ≠ [] := by
    unfold quoteForFts5
    by_cases hquoted : isQuoted (named token) = true
    · rw [if_pos hquoted]
      intro hnil
      rw [hnil] at hquoted
      exact absurd hquoted (by decide)
    · by_cases hprefix : isPrefixWord u (named token) = true
      · rw [if_neg hquoted, if_pos hprefix]
        intro hnil
        rw [hnil] at hprefix
        simp [isPrefixWord] at hprefix
      · simp [hquoted, hprefix]
  rw [fts5Part_eq]
  split
  · simp
  split
  · simp
  · exact hquote

theorem tokens_ne {query : Str} (h : strip query ≠ []) : tokens query ≠ [] := by
  have hlast := List.getLast?_eq_some_getLast h
  have hspace : isSpace ((strip query).getLast h) = false := rstrip_last (s := lstrip query) hlast
  obtain ⟨token, htoken, -⟩ := mem_tokens (List.getLast_mem h) hspace
  exact List.ne_nil_of_mem htoken

theorem toFts5_ne {query : Str} (h : strip query ≠ []) : toFts5 u query ≠ [] := by
  rw [toFts5, if_neg h]
  cases htokens : tokens query with
  | nil => exact absurd htokens (tokens_ne h)
  | cons token tokens => simp [joinBlank_cons, fts5Part_ne]

/-- What FTS5 can read of a query: what is left as it was typed is an expression, and the
operators stand where they may. -/
structure FtsReady (u : Unicode) (query : Str) : Prop where
  sound : ∀ token ∈ tokens query, isOr u token = false → Sound u token
  placed : operatorsPlaced u true (tokens query) = true

theorem even_of_sound {token : Str} (h : isOr u token = false → Sound u token) :
    oddQuotes (fts5Part u token) = false := by
  by_cases hor : isOr u token = true
  · rw [oddQuotes_part]
    simp [leavesOpen, hor]
  · have hnotOr : isOr u token = false := by simpa using hor
    obtain ⟨ts, q, hts, -⟩ := sound_iff.mp (h hnotOr)
    rw [oddQuotes_fts5Part token hnotOr]
    simpa [inside] using even_of_ftsLexFrom hts

theorem toFts5_valid {query : Str} (hquery : strip query ≠ []) (h : FtsReady u query) :
    FtsValid (toFts5 u query) := by
  have heven : ∀ token ∈ tokens query, oddQuotes (fts5Part u token) = false :=
    fun token htoken => even_of_sound (h.sound token htoken)
  rw [toFts5, if_neg hquery]
  exact ftsValid_iff.mpr ((completes_parts_iff heven .before).mpr ⟨h.sound, h.placed⟩)

/-- Unless two of the tokens that are left as they were typed close each other's quotes, a
translation that can be read is of a query that is ready for it. -/
theorem ready_of_valid {query : Str} (hquery : strip query ≠ []) (h : FtsValid (toFts5 u query)) :
    FtsReady u query ∨ 2 ≤ (tokens query).countP (leavesOpen u) := by
  rw [toFts5, if_neg hquery] at h
  have hcount : ((tokens query).map (fts5Part u)).countP oddQuotes =
      (tokens query).countP (leavesOpen u) := by
    rw [List.countP_map]
    exact List.countP_congr fun token _ => by simp [oddQuotes_part]
  have hclosed : (tokens query).countP (leavesOpen u) % 2 ≠ 1 := by
    obtain ⟨ts, hts, -⟩ := h
    have heven := even_of_ftsLexFrom hts
    rw [← hcount]
    intro hodd
    rw [← oddQuotes_joinBlank] at hodd
    simp [inside, hodd] at heven
  rcases Nat.lt_or_ge ((tokens query).countP (leavesOpen u)) 2 with hfew | hmany
  · left
    have hzero : (tokens query).countP (leavesOpen u) = 0 := by omega
    have heven : ∀ token ∈ tokens query, oddQuotes (fts5Part u token) = false := by
      intro token htoken
      rw [oddQuotes_part]
      simpa using List.countP_eq_zero.mp hzero token htoken
    have hready := (completes_parts_iff heven .before).mp (ftsValid_iff.mp h)
    exact ⟨hready.1, hready.2⟩
  · exact .inr hmany

end CwStation.QueryParser
