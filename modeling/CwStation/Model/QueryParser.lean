import CwStation.Model.TextSearch

/-! # `apps/search/query_parser.py`: the query of a user in the two dialects -/

namespace CwStation.QueryParser

open TextSearch

/-! ## Tokens -/

/-- The match of `"[^"]+"|\S+` at a place. -/
def tokenAt : Str → Option Str
  | [] => none
  | c :: cs =>
      let body := cs.takeWhile (· ≠ '"')
      if c = '"' ∧ body ≠ [] ∧ cs.dropWhile (· ≠ '"') ≠ [] then some ('"' :: body ++ ['"'])
      else if isSpace c then none
      else some (c :: cs.takeWhile fun c => !isSpace c)

/-- `findall`. The counter is the rest of the last token. -/
def tokensFrom : ℕ → Str → List Str
  | _, [] => []
  | skip + 1, _ :: cs => tokensFrom skip cs
  | 0, c :: cs =>
      match tokenAt (c :: cs) with
      | none => tokensFrom 0 cs
      | some token => token :: tokensFrom (token.length - 1) cs

/-- `_tokens`. -/
def tokens (query : Str) : List Str := tokensFrom 0 (strip query)

/-- `tok.upper() == "OR"`. -/
def isOr (u : Unicode) (token : Str) : Bool := u.upper token == "OR".toList

/-- `token.startswith('"') and token.endswith('"')`. -/
def isQuoted (token : Str) : Bool := token.head? == some '"' && token.getLast? == some '"'

/-- `" ".join(parts)`. -/
def joinBlank (parts : List Str) : Str := List.intercalate [' '] parts

/-! ## The dialect of FTS5 -/

/-- `re.match(r"^[\w-]+\*$", token)` of a token that ends in a star. -/
def isPrefixWord (u : Unicode) (token : Str) : Bool :=
  token.getLast? == some '*' && !token.dropLast.isEmpty &&
    token.dropLast.all fun c => u.isWord c || c == '-'

/-- `_quote_for_fts5`. -/
def quoteForFts5 (u : Unicode) (token : Str) : Str :=
  if isQuoted token then token
  else if isPrefixWord u token then token
  else '"' :: token.filter (· ≠ '"') ++ ['"']

/-- What one token contributes. -/
def fts5Part (u : Unicode) (token : Str) : Str :=
  if isOr u token then "OR".toList
  else if token.head? = some '-' ∧ 1 < token.length then "NOT ".toList ++ quoteForFts5 u token.tail
  else quoteForFts5 u token

/-- `to_fts5`. -/
def toFts5 (u : Unicode) (query : Str) : Str :=
  if strip query = [] then []
  else joinBlank ((tokens query).map (fts5Part u))

/-! ## The dialect of Postgres -/

/-- `_clean_pg_term`. -/
def cleanPgTerm (token : Str) : Str :=
  strip (token.filter fun c => c ∉ ['&', '|', '!', '(', ')', ':', '"', '*'])

/-- What one token that is no `OR` contributes, if anything. -/
def pgPiece (token : Str) : Option Str :=
  if isQuoted token then
    let ws := ((splitSpaces token.tail.dropLast).map cleanPgTerm).filter (· ≠ [])
    if ws = [] then none else some ('(' :: List.intercalate " <-> ".toList ws ++ [')'])
  else if token.head? = some '-' ∧ 1 < token.length then
    let cleaned := cleanPgTerm token.tail
    if cleaned = [] then none else some ('!' :: cleaned)
  else if token.getLast? = some '*' then
    let cleaned := cleanPgTerm token.dropLast
    if cleaned = [] then none else some (cleaned ++ ":*".toList)
  else
    let piece := cleanPgTerm token
    if piece = [] then none else some piece

/-- The loop of `to_postgres`: the pieces so far and the pending operator. -/
def pgPieces (u : Unicode) : List Str → Option Str → List Str → List Str
  | pieces, _, [] => pieces
  | pieces, pending, token :: rest =>
      if isOr u token then pgPieces u pieces (some "|".toList) rest
      else
        match pgPiece token with
        | none => pgPieces u pieces pending rest
        | some piece =>
            if pieces = [] then pgPieces u [piece] none rest
            else pgPieces u (pieces ++ [pending.getD "&".toList, piece]) none rest

def hasOperators (u : Unicode) (tokens : List Str) : Bool :=
  tokens.any fun token =>
    isOr u token || token.head? == some '-' || token.getLast? == some '*'

/-- `to_postgres`. -/
def toPostgres (u : Unicode) (query : Str) : Str × SearchType :=
  if strip query = [] then ([], .plain)
  else
    let ts := tokens query
    match ts with
    | [token] =>
        if isQuoted token then (token.tail.dropLast, .phrase)
        else if hasOperators u ts = false ∧ '"' ∉ token then (strip query, .plain)
        else (joinBlank (pgPieces u [] none ts), .raw)
    | _ =>
        if hasOperators u ts = false ∧ ts.all (fun t => decide ('"' ∉ t)) = true then
          (strip query, .plain)
        else (joinBlank (pgPieces u [] none ts), .raw)

/-! ## The two searches -/

/-- The document is found through FTS5. An empty translation is not run. -/
def fts5Finds (u : Unicode) (query : Str) (doc : List Str) : Bool :=
  let translated := toFts5 u query
  translated ≠ [] && ftsMatches u translated doc

/-- The document is found through Postgres. -/
def postgresFinds (u : Unicode) (query : Str) (doc : List Str) : Bool :=
  let (translated, type) := toPostgres u query
  translated ≠ [] && tsMatches u translated type doc

end CwStation.QueryParser
