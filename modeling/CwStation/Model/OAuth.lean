import CwStation.Library.Requests
import CwStation.Model.ApiTokens

/-! # Authorization codes: `apps/mcp/oauth_views.py` and `apps/mcp/models.py`

The consent page mints a token and a code that carries its key, `/token` exchanges the code
once for the key, and both clear away the codes that nobody has come for. -/

namespace CwStation.OAuth

open Auth Requests Threads

/-- The settings, and the parts of the library that are used as they are. -/
structure Env where
  /-- `MCP_OAUTH_CODE_TTL_SECONDS`. -/
  ttl : ℤ
  /-- `MCP_TOKEN_NAME_PREFIX`. -/
  namePrefix : Str
  /-- `hashlib.sha256(...).hexdigest()` of a key. -/
  sha256 : Str → Str
  /-- The unpadded `base64url` of the digest of an ASCII text. -/
  s256 : Str → Str
  /-- `_is_safe_redirect_uri`. -/
  isSafeRedirectUri : Str → Bool

/-- The time to live in microseconds. -/
def Env.life (env : Env) : ℤ := env.ttl * 1000000

/-! ## Answers -/

inductive Answer
  /-- `{"error": …, "error_description": …}` with status 400. -/
  | badRequest (error : String) (description : Option String)
  /-- The redirect to a URI with these parameters, urlencoded, after `?` or `&`. -/
  | redirect (uri : Str) (params : List (Str × Str))
  /-- The token response. -/
  | issued (accessToken scope : Str)
  /-- What `expire_unredeemed_codes` returns. -/
  | swept (count : ℕ)
  /-- Time has passed. -/
  | elapsed
  /-- An exception: the server error page. -/
  | raised (e : String)
  deriving DecidableEq, Repr

def invalidGrant (description : String) : Answer := .badRequest "invalid_grant" (some description)

/-! ## `expire_unredeemed_codes` -/

/-- The filter of the sweep. -/
def stale (cutoff : ℤ) (code : AuthorizationCode) : Bool :=
  code.usedAt.isNone && code.createdAt < cutoff && code.rawKey ≠ []

/-- `list(stale.values_list("api_token_id", flat=True))`. -/
def staleTokens (cutoff : ℤ) (w : World) : List ℕ :=
  (w.codes.filter (stale cutoff)).map AuthorizationCode.apiToken

/-- The tokens the sweep deactivates. -/
def revokes (tokenIds : List ℕ) (t : ApiToken) : Bool :=
  tokenIds.contains t.id && t.tokenType = .oauth && t.isActive

/-- `stale.update(raw_key="")`, which looks for the stale rows again. -/
def scrub (cutoff : ℤ) (w : World) : ℕ × World :=
  ((w.codes.filter (stale cutoff)).length,
    { w with codes := w.codes.map fun code =>
        if stale cutoff code then { code with rawKey := [] } else code })

def scrubStale (cutoff : ℤ) : Prog World ℕ := .stmt (scrub cutoff)

def revokeAt (cutoff : ℤ) (tokenIds : List ℕ) (revokedAt : ℤ) : Prog World ℕ := do
  .write (revokeTokens (revokes tokenIds) revokedAt)
  scrubStale cutoff

def revokeStale (cutoff : ℤ) (tokenIds : List ℕ) : Prog World ℕ := do
  let revokedAt ← timezoneNow
  revokeAt cutoff tokenIds revokedAt

def selectStale (cutoff : ℤ) : Prog World ℕ := do
  let tokenIds ← .read (staleTokens cutoff)
  if tokenIds = [] then return 0 else revokeStale cutoff tokenIds

def expireUnredeemedCodes (env : Env) : Prog World ℕ := do
  let now ← timezoneNow
  selectStale (now - env.life)

/-! ## `/token` -/

/-- The fields of the form, the empty text where one is missing. -/
structure TokenRequest where
  grantType : Str
  code : Str
  codeVerifier : Str
  clientId : Str := []
  redirectUri : Str := []
  deriving DecidableEq, Repr

def isAscii (s : Str) : Bool := s.all fun c => c.toNat < 128

/-- `verify_pkce`: a verifier that is no ASCII has no bytes to hash, and `compare_digest` takes
no text beyond ASCII. -/
def verifyPkce (env : Env) (codeVerifier codeChallenge method : Str) : Except String Bool :=
  if codeVerifier = [] ∨ codeChallenge = [] then .ok false
  else if method ≠ "S256".toList then .ok false
  else if ¬ isAscii codeVerifier then .error "UnicodeEncodeError"
  else if ¬ isAscii codeChallenge then .error "TypeError"
  else .ok (env.s256 codeVerifier = codeChallenge)

/-- The claim: `filter(pk=…, used_at__isnull=True).update(used_at=…, raw_key="")`. -/
def claim (pk : ℕ) (usedAt : ℤ) (w : World) : ℕ × World :=
  ((w.codes.filter fun code => code.id = pk && code.usedAt.isNone).length,
    { w with codes := w.codes.map fun code =>
        if code.id = pk && code.usedAt.isNone then
          { code with usedAt := some usedAt, rawKey := [] } else code })

/-- The answer after a claim. -/
def claimAnswer (row : AuthorizationCode) (claimed : ℕ) : Answer :=
  if claimed = 0 then invalidGrant "Code already used"
  else if row.rawKey = [] then invalidGrant "Key already revealed"
  else .issued row.rawKey (if row.scope = [] then "read".toList else row.scope)

def claimAt (row : AuthorizationCode) (usedAt : ℤ) : Prog World Answer := do
  let claimed ← .stmt (claim row.id usedAt)
  return claimAnswer row claimed

/-- From the reading of the key on. -/
def redeem (row : AuthorizationCode) : Prog World Answer := do
  let usedAt ← timezoneNow
  claimAt row usedAt

def codeExpired (env : Env) : Prog World Answer := do
  let _ ← expireUnredeemedCodes env
  return invalidGrant "Code expired"

def checkPkce (env : Env) (r : TokenRequest) (row : AuthorizationCode) : Prog World Answer :=
  match verifyPkce env r.codeVerifier row.codeChallenge "S256".toList with
  | .error e => return .raised e
  | .ok false => return invalidGrant "PKCE verification failed"
  | .ok true => redeem row

/-- From the age check on. -/
def checkAge (env : Env) (r : TokenRequest) (row : AuthorizationCode) : Prog World Answer := do
  let now ← timezoneNow
  if env.life < now - row.createdAt then codeExpired env else checkPkce env r row

/-- The checks of the row that has been read. -/
def checkRow (env : Env) (r : TokenRequest) (row : AuthorizationCode) : Prog World Answer :=
  if r.redirectUri ≠ [] ∧ r.redirectUri ≠ row.redirectUri then
    return invalidGrant "redirect_uri mismatch"
  else if row.usedAt ≠ none then return invalidGrant "Code already used"
  else checkAge env r row

def findCode (code : Str) (w : World) : Option AuthorizationCode :=
  Table.get AuthorizationCode.code w.codes code

def readRow (env : Env) (r : TokenRequest) : Prog World Answer := do
  let found ← .read (findCode r.code)
  match found with
  | none => return invalidGrant "Unknown code"
  | some row => checkRow env r row

def token (env : Env) (r : TokenRequest) : Prog World Answer :=
  if r.grantType ≠ "authorization_code".toList then return .badRequest "unsupported_grant_type" none
  else readRow env r

/-! ## `/authorize` -/

/-- A posted consent form, who posts it, and what is drawn for it. -/
structure Consent where
  user : User
  clientId : Str
  redirectUri : Str
  codeChallenge : Str
  state : Str
  scope : Str
  decision : Str
  rawKey : RawKey
  code : Str
  deriving DecidableEq, Repr

/-- `scope.split()`. -/
def scopeWords (scope : Str) : List Str := (scope.splitOnP isSpace).filter (· ≠ [])

/-- Write scope is for staff only. -/
def accessLevel (c : Consent) : AccessLevel :=
  if "write".toList ∈ scopeWords c.scope ∧ c.user.isStaff then .staff else .readonly

def newToken (env : Env) (c : Consent) : NewToken where
  user := c.user.id
  name := env.namePrefix ++ " — ".toList ++ c.clientId
  description := "Auto-minted via OAuth (scope=".toList ++ c.scope ++ [')']
  tokenType := .oauth
  accessLevel := accessLevel c

def newCode (c : Consent) (apiToken : ApiToken) (createdAt : ℤ) (id : ℕ) : AuthorizationCode :=
  { id := id
    code := c.code
    user := c.user.id
    apiToken := apiToken.id
    rawKey := c.rawKey.text
    redirectUri := c.redirectUri
    codeChallenge := c.codeChallenge
    codeChallengeMethod := "S256".toList
    scope := c.scope
    clientId := c.clientId
    createdAt := createdAt }

/-- The insertion of a code, which is unique. -/
def insertCode (row : ℕ → AuthorizationCode) (w : World) : Bool × World :=
  if w.codes.any fun code => code.code = (row w.nextCode).code then (false, w)
  else (true, { w with codes := w.codes ++ [row w.nextCode], nextCode := w.nextCode + 1 })

def issueAnswer (c : Consent) (inserted : Bool) : Answer :=
  if inserted then
    .redirect c.redirectUri [("code".toList, c.code), ("state".toList, c.state)]
  else .raised "IntegrityError"

def issueAt (c : Consent) (apiToken : ApiToken) (createdAt : ℤ) : Prog World Answer := do
  let inserted ← .stmt (insertCode (newCode c apiToken createdAt))
  return issueAnswer c inserted

/-- `OAuthAuthorizationCode.objects.create(...)`: `created_at` is the time before the insertion. -/
def issueCode (c : Consent) (apiToken : ApiToken) : Prog World Answer := do
  let createdAt ← timezoneNow
  issueAt c apiToken createdAt

def afterMint (env : Env) (c : Consent) (apiToken : ApiToken) : Prog World Answer := do
  let _ ← expireUnredeemedCodes env
  issueCode c apiToken

/-- `AuthorizeView.post`. -/
def authorize (env : Env) (c : Consent) : Prog World Answer :=
  if ¬ env.isSafeRedirectUri c.redirectUri then
    return .badRequest "invalid_request"
      (some "redirect_uri must be https, or http on a loopback host")
  else if c.decision ≠ "allow".toList then
    return .redirect c.redirectUri [("error".toList, "access_denied".toList),
      ("state".toList, c.state)]
  else do
    let apiToken ← createToken env.sha256 (newToken env c) c.rawKey
    afterMint env c apiToken

/-! ## The endpoints together -/

inductive Job
  | authorize (c : Consent)
  | token (r : TokenRequest)
  | sweep
  | elapse (microseconds : ℕ)
  deriving DecidableEq, Repr

def Job.program (env : Env) : Job → Prog World Answer
  | .authorize c => OAuth.authorize env c
  | .token r => OAuth.token env r
  | .sweep => do
      let count ← expireUnredeemedCodes env
      return .swept count
  | .elapse microseconds => do
      .write fun w => { w with now := w.now + microseconds }
      return .elapsed

/-- The server after these turns, from empty tables. -/
def served (env : Env) (now : ℤ) (turns : List (Turn Job)) : Server Job (Prog World Answer) World :=
  serve (Job.program env) { now := now } turns

end CwStation.OAuth
