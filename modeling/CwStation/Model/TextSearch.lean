import CwStation.Library.Operators
import CwStation.Model.Python

/-! # The two full-text engines

FTS5's `MATCH` strings and Postgres' `tsquery`, as far as strings, prefixes, phrases and the
Boolean operators go: how a query string is read, and which documents it matches. A document
is its list of words. Neither engine's stemming or stop words are modelled. -/

namespace CwStation.TextSearch

open Operators

/-! ## Phrases -/

/-- Words that stand next to each other; `true` asks for a word that begins so. -/
abbrev Phrase := List (Str × Bool)

/-- The document begins with the phrase. -/
def startsAt : Phrase → List Str → Bool
  | [], _ => true
  | _ :: _, [] => false
  | (word, starts) :: phrase, d :: doc =>
      (if starts then word.isPrefixOf d else word == d) && startsAt phrase doc

/-- The phrase stands somewhere in the document. A phrase without words stands nowhere. -/
def occurs (phrase : Phrase) (doc : List Str) : Bool :=
  !phrase.isEmpty && doc.tails.any (startsAt phrase)

/-- Letters and digits make words in both engines; an underscore does not. -/
def isAlnum (u : Unicode) (c : Char) : Bool := u.isWord c && c != '_'

/-- The words of a text. -/
def words (u : Unicode) (text : Str) : List Str :=
  (text.splitOnP fun c => !isAlnum u c).filter (· ≠ [])

/-! ## FTS5 -/

inductive FtsToken
  | str (text : Str)
  | star
  | and
  | or
  | not
  | opening
  | closing
  deriving DecidableEq, Repr

/-- A bareword: one of the operators in capitals, or a string. -/
def bareword (w : Str) : FtsToken :=
  if w = "AND".toList then .and
  else if w = "OR".toList then .or
  else if w = "NOT".toList then .not
  else .str w

/-- ASCII letters and digits, the underscore, the substitute character, and everything that is
not ASCII. -/
def isBareChar (c : Char) : Bool :=
  c.isAlphanum || c == '_' || c.toNat == 26 || 128 ≤ c.toNat

/-- Where the reader of a query string is: between tokens, in a bareword, in a quoted string,
or behind a quote that closes it unless one more follows. -/
inductive FtsState
  | between
  | bare (word : Str)
  | quoted (text : Str)
  | closed (text : Str)
  deriving DecidableEq, Repr

/-- A character between tokens. Characters of column filters, `NEAR`, `+` and `^` are not
part of the fragment. -/
def ftsStart (c : Char) : Option (List FtsToken × FtsState) :=
  if c = ' ' ∨ c = '\t' ∨ c = '\n' ∨ c = '\r' then some ([], .between)
  else if c = '"' then some ([], .quoted [])
  else if c = '*' then some ([.star], .between)
  else if c = '(' then some ([.opening], .between)
  else if c = ')' then some ([.closing], .between)
  else if isBareChar c then some ([], .bare [c])
  else none

def ftsStep : FtsState → Char → Option (List FtsToken × FtsState)
  | .between, c => ftsStart c
  | .bare word, c =>
      if isBareChar c then some ([], .bare (word ++ [c]))
      else (ftsStart c).map fun next => (bareword word :: next.1, next.2)
  | .quoted text, c => if c = '"' then some ([], .closed text) else some ([], .quoted (text ++ [c]))
  | .closed text, c =>
      if c = '"' then some ([], .quoted (text ++ ['"']))
      else (ftsStart c).map fun next => (.str text :: next.1, next.2)

/-- The end of the query string. -/
def ftsEnd : FtsState → Option (List FtsToken)
  | .between => some []
  | .bare word => some [bareword word]
  | .quoted _ => none
  | .closed text => some [.str text]

def ftsLexFrom : FtsState → Str → Option (List FtsToken)
  | state, [] => ftsEnd state
  | state, c :: cs =>
      match ftsStep state c with
      | none => none
      | some (ts, state') => (ftsLexFrom state' cs).map (ts ++ ·)

def ftsLex (query : Str) : Option (List FtsToken) := ftsLexFrom .between query

inductive FtsQuery
  | phrase (text : Str) (star : Bool)
  | and (a b : FtsQuery)
  | or (a b : FtsQuery)
  /-- `a NOT b`, which is binary. -/
  | not (a b : FtsQuery)
  deriving DecidableEq, Repr

/-- The phrases behind the first one of a sequence, which `AND` joins. -/
def ftsPhrases : FtsQuery → Parser FtsToken FtsQuery
  | acc, .str text :: .star :: ts => ftsPhrases (.and acc (.phrase text true)) ts
  | acc, .str text :: ts => ftsPhrases (.and acc (.phrase text false)) ts
  | acc, ts => some (acc, ts)

/-- A sequence of phrases, or an expression in parentheses. -/
def ftsOperand (inner : Parser FtsToken FtsQuery) : Parser FtsToken FtsQuery
  | .str text :: .star :: ts => ftsPhrases (.phrase text true) ts
  | .str text :: ts => ftsPhrases (.phrase text false) ts
  | .opening :: ts =>
      match inner ts with
      | some (q, .closing :: rest) => some (q, rest)
      | _ => none
  | _ => none

def ftsNot : FtsToken → Option (FtsQuery → FtsQuery → FtsQuery)
  | .not => some .not
  | _ => none

def ftsAnd : FtsToken → Option (FtsQuery → FtsQuery → FtsQuery)
  | .and => some .and
  | _ => none

def ftsOr : FtsToken → Option (FtsQuery → FtsQuery → FtsQuery)
  | .or => some .or
  | _ => none

/-- A sequence of phrases binds tightest, then `NOT`, `AND` and `OR`. The counter bounds the
depth of parentheses. -/
def ftsExpr : ℕ → Parser FtsToken FtsQuery
  | 0 => fun _ => none
  | n + 1 => chain ftsOr (chain ftsAnd (chain ftsNot (ftsOperand (ftsExpr n))))

def ftsParse (ts : List FtsToken) : Option FtsQuery :=
  match ftsExpr (ts.length + 1) ts with
  | some (q, []) => some q
  | _ => none

/-- The words of a string, the last of which may be a prefix. -/
def ftsPhrase (u : Unicode) (text : Str) (star : Bool) : Phrase :=
  let ws := words u text
  ws.dropLast.map (·, false) ++ (ws.getLast?.map (·, star)).toList

def FtsQuery.eval (u : Unicode) (doc : List Str) : FtsQuery → Bool
  | .phrase text star => occurs (ftsPhrase u text star) doc
  | .and a b => a.eval u doc && b.eval u doc
  | .or a b => a.eval u doc || b.eval u doc
  | .not a b => a.eval u doc && !b.eval u doc

/-- `MATCH` on one document. A query string that is not well formed raises, and no document
is found. -/
def ftsMatches (u : Unicode) (query : Str) (doc : List Str) : Bool :=
  match (ftsLex query).bind ftsParse with
  | none => false
  | some q => q.eval u doc

/-! ## `tsquery` -/

inductive TsToken
  | word (text : Str)
  /-- `:*`. -/
  | star
  | bang
  | amp
  | bar
  /-- `<->`. -/
  | next
  | opening
  | closing
  deriving DecidableEq, Repr

/-- The token of the word that was being read. -/
def tsWord (word : Str) : List TsToken := if word = [] then [] else [.word word]

def tsSingle (c : Char) : Option (List TsToken) :=
  if c = ' ' ∨ c = '\t' ∨ c = '\n' ∨ c = '\r' then some []
  else if c = '!' then some [.bang]
  else if c = '&' then some [.amp]
  else if c = '|' then some [.bar]
  else if c = '(' then some [.opening]
  else if c = ')' then some [.closing]
  else none

/-- The tokens of `to_tsquery`'s argument, behind a word that has been read up to here. -/
def tsLexFrom (u : Unicode) : Str → Str → Option (List TsToken)
  | word, [] => some (tsWord word)
  | word, '<' :: '-' :: '>' :: cs =>
      (tsLexFrom u [] cs).map fun ts => tsWord word ++ .next :: ts
  | word, ':' :: '*' :: cs => (tsLexFrom u [] cs).map fun ts => tsWord word ++ .star :: ts
  | word, c :: cs =>
      if isAlnum u c then tsLexFrom u (word ++ [c]) cs
      else
        match tsSingle c with
        | none => none
        | some ts => (tsLexFrom u [] cs).map fun more => tsWord word ++ ts ++ more

def tsLex (u : Unicode) (query : Str) : Option (List TsToken) := tsLexFrom u [] query

inductive TsQuery
  | phrase (p : Phrase)
  | not (a : TsQuery)
  | and (a b : TsQuery)
  | or (a b : TsQuery)
  deriving DecidableEq, Repr

/-- `<->` and the lexemes behind it; between other operands it is not part of the fragment. -/
def tsPhrase : Phrase → Parser TsToken TsQuery
  | p, .next :: .word w :: .star :: ts => tsPhrase (p ++ [(w, true)]) ts
  | p, .next :: .word w :: ts => tsPhrase (p ++ [(w, false)]) ts
  | _, .next :: _ => none
  | p, ts => some (.phrase p, ts)

def tsOperand (inner : Parser TsToken TsQuery) : Parser TsToken TsQuery
  | .word w :: .star :: ts => tsPhrase [(w, true)] ts
  | .word w :: ts => tsPhrase [(w, false)] ts
  | .bang :: ts =>
      match tsOperand inner ts with
      | some (q, rest) => some (.not q, rest)
      | none => none
  | .opening :: ts =>
      match inner ts with
      | some (q, .closing :: rest) => some (q, rest)
      | _ => none
  | _ => none

def tsAnd : TsToken → Option (TsQuery → TsQuery → TsQuery)
  | .amp => some .and
  | _ => none

def tsOr : TsToken → Option (TsQuery → TsQuery → TsQuery)
  | .bar => some .or
  | _ => none

/-- `!` binds tightest, then `<->`, `&` and `|`. -/
def tsExpr : ℕ → Parser TsToken TsQuery
  | 0 => fun _ => none
  | n + 1 => chain tsOr (chain tsAnd (tsOperand (tsExpr n)))

def tsParse (ts : List TsToken) : Option TsQuery :=
  match tsExpr (ts.length + 1) ts with
  | some (q, []) => some q
  | _ => none

def TsQuery.eval (doc : List Str) : TsQuery → Bool
  | .phrase p => occurs p doc
  | .not a => !a.eval doc
  | .and a b => a.eval doc && b.eval doc
  | .or a b => a.eval doc || b.eval doc

/-- `search_type`, the function that reads the query string: `to_tsquery`,
`phraseto_tsquery` or `plainto_tsquery`. -/
inductive SearchType
  | raw
  | phrase
  | plain
  deriving DecidableEq, Repr

/-- `search_vector @@ q` on one document. A `tsquery` without words matches nothing. -/
def tsMatches (u : Unicode) (query : Str) (type : SearchType) (doc : List Str) : Bool :=
  match type with
  | .raw =>
      match (tsLex u query).bind tsParse with
      | none => false
      | some q => q.eval doc
  | .phrase => occurs ((words u query).map (·, false)) doc
  | .plain =>
      let ws := words u query
      !ws.isEmpty && ws.all fun w => occurs [(w, false)] doc

end CwStation.TextSearch
