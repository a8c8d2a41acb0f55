import CwStation.Library.Table
import CwStation.Library.Threads
import CwStation.Model.Python

/-! # Bearer tokens: `apps/smallstack/models.py`

The tables behind the credentials and the statements on them. Every statement is its own
transaction. Times are in microseconds. -/

namespace CwStation.Auth

open Threads

/-- `TOKEN_TYPE_CHOICES`. -/
inductive TokenType
  | login
  | manual
  | oauth
  deriving DecidableEq, Repr

/-- `ACCESS_LEVEL_CHOICES`, and the empty text. -/
inductive AccessLevel
  | auth
  | staff
  | readonly
  | unset
  deriving DecidableEq, Repr

structure User where
  id : ℕ
  isStaff : Bool
  isActive : Bool
  deriving DecidableEq, Repr

/-- `APIToken`. -/
structure ApiToken where
  id : ℕ
  name : Str
  keyPrefix : Str
  hashedKey : Str
  description : Str := []
  tokenType : TokenType
  accessLevel : AccessLevel
  createdAt : ℤ
  lastUsedAt : Option ℤ := none
  expiresAt : Option ℤ
  revokedAt : Option ℤ := none
  isActive : Bool := true
  requestCount : ℕ := 0
  user : ℕ
  deriving DecidableEq, Repr

/-- `OAuthAuthorizationCode`. -/
structure AuthorizationCode where
  id : ℕ
  code : Str
  user : ℕ
  apiToken : ℕ
  rawKey : Str
  redirectUri : Str
  codeChallenge : Str
  codeChallengeMethod : Str
  scope : Str
  clientId : Str
  createdAt : ℤ
  usedAt : Option ℤ := none
  deriving DecidableEq, Repr

structure World where
  now : ℤ
  users : List User := []
  tokens : List ApiToken := []
  codes : List AuthorizationCode := []
  nextToken : ℕ := 0
  nextCode : ℕ := 0
  deriving DecidableEq, Repr

/-- A key as `_generate_raw_key` settles on it: it is long, and its prefix starts with no `-`. -/
structure RawKey where
  text : Str
  long : 8 ≤ text.length
  plain : text.head? ≠ some '-'
  deriving DecidableEq, Repr

/-- `raw_key[:PREFIX_LENGTH]`. -/
def keyPrefix (rawKey : Str) : Str := rawKey.take 8

def timezoneNow : Prog World ℤ := .read World.now

/-- The columns that `create` is given. -/
structure NewToken where
  user : ℕ
  name : Str
  description : Str := []
  tokenType : TokenType
  accessLevel : AccessLevel
  expiresAt : Option ℤ := none

/-- The row that is inserted for a key. -/
def NewToken.row (t : NewToken) (sha256 : Str → Str) (rawKey : RawKey) (createdAt : ℤ) (id : ℕ) :
    ApiToken :=
  { id := id
    name := t.name
    keyPrefix := keyPrefix rawKey.text
    hashedKey := sha256 rawKey.text
    description := t.description
    tokenType := t.tokenType
    accessLevel := t.accessLevel
    createdAt := createdAt
    expiresAt := t.expiresAt
    user := t.user }

/-- The insertion of a token. -/
def insertToken (row : ℕ → ApiToken) (w : World) : ApiToken × World :=
  (row w.nextToken,
    { w with tokens := w.tokens ++ [row w.nextToken], nextToken := w.nextToken + 1 })

/-- `APIToken.create_token`. -/
def createToken (sha256 : Str → Str) (t : NewToken) (rawKey : RawKey) : Prog World ApiToken := do
  let createdAt ← timezoneNow
  .stmt (insertToken (t.row sha256 rawKey createdAt))

/-- `update(is_active=False, revoked_at=…)` on the tokens that a filter lets through. -/
def revokeTokens (which : ApiToken → Bool) (revokedAt : ℤ) (w : World) : World :=
  { w with tokens := w.tokens.map fun t =>
      if which t then { t with isActive := false, revokedAt := some revokedAt } else t }

end CwStation.Auth
