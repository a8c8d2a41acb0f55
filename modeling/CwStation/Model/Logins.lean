import CwStation.Library.Requests
import CwStation.Model.ApiTokens

/-! # Login keys: the auth endpoints of `apps/smallstack/api.py`

A login exchanges a password for a key. The clock is read along with the statement next to it. -/

namespace CwStation.Logins

open Auth Requests Threads

/-- The settings, and the parts of the library that are used as they are. -/
structure Env where
  /-- `hashlib.sha256(...).hexdigest()` of a key. -/
  sha256 : Str → Str
  /-- The user that a name and a password belong to. -/
  checkPassword : Str → Str → Option ℕ
  /-- `SMALLSTACK_LOGIN_TOKEN_EXPIRY_HOURS`. -/
  expiryHours : ℤ
  /-- `SMALLSTACK_LOGIN_TOKEN_MAX_HOURS`. -/
  maxHours : ℤ

inductive Answer
  /-- `_error(message, status)`. -/
  | error (status : ℕ) (message : String)
  /-- `"Token expired at …"` with status 401. -/
  | expired (expiredAt : ℤ)
  /-- The key, the user and the expiry. -/
  | token (rawKey : Str) (user : ℕ) (expiresAt : ℤ)
  | message (text : String)
  /-- A key that was minted by hand. -/
  | minted
  | elapsed
  | raised (e : String)
  deriving DecidableEq, Repr

/-! ## `_resolve_token_expiry` -/

/-- What `int(requested_hours)` makes of the field. -/
inductive Hours
  | absent
  | number (n : ℤ)
  | unreadable
  | overflow
  deriving DecidableEq, Repr

def resolveTokenExpiry (env : Env) : Hours → Except String ℤ
  | .absent | .unreadable => .ok (min (max 1 env.expiryHours) env.maxHours)
  | .number n => .ok (min (max 1 n) env.maxHours)
  | .overflow => .error "OverflowError"

/-- `timezone.now() + timedelta(hours=…)`. -/
def expiry (hours now : ℤ) : ℤ := now + hours * 3600000000

/-! ## `APIToken.authenticate` -/

inductive Rejection
  | revoked
  | expired (expiredAt : ℤ)
  | userInactive
  deriving DecidableEq, Repr

def findUser (w : World) (id : ℕ) : Option User := Table.get User.id w.users id

/-- `token.rejection_reason()`. -/
def rejectionReason (w : World) (t : ApiToken) : Option Rejection :=
  if t.revokedAt ≠ none ∨ t.isActive = false then some .revoked
  else match t.expiresAt.filter (· < w.now) with
    | some expiredAt => some (.expired expiredAt)
    | none => if (findUser w t.user).any User.isActive then none else some .userInactive

/-- The rows that a key may belong to. -/
def keyRows (env : Env) (rawKey : Str) (w : World) : List ApiToken :=
  w.tokens.filter fun t => t.keyPrefix = keyPrefix rawKey && t.hashedKey = env.sha256 rawKey

/-- What the lookup of a key gives. -/
inductive Lookup
  | unknown
  | several
  | refused (t : ApiToken) (reason : Rejection)
  | accepted (t : ApiToken)
  deriving DecidableEq, Repr

def lookup (env : Env) (rawKey : Str) (w : World) : Lookup :=
  if rawKey.length < 8 then .unknown
  else match keyRows env rawKey w with
    | [] => .unknown
    | [t] => match rejectionReason w t with
        | some reason => .refused t reason
        | none => .accepted t
    | _ => .several

/-- `update_fields` of a saved row. -/
def saveToken (pk : ℕ) (update : World → ApiToken → ApiToken) (w : World) : World :=
  { w with tokens := Table.alter ApiToken.id pk (update w) w.tokens }

/-- `last_used_at` and `request_count` of a key that is accepted. -/
def touch (w : World) (t : ApiToken) : ApiToken :=
  { t with lastUsedAt := some w.now, requestCount := t.requestCount + 1 }

/-- A new key in the row. -/
def renew (env : Env) (rawKey : RawKey) (expiresAt : ℤ) (w : World) (t : ApiToken) : ApiToken :=
  { t with
    keyPrefix := keyPrefix rawKey.text
    hashedKey := env.sha256 rawKey.text
    expiresAt := some expiresAt
    lastUsedAt := some w.now }

/-- `token.revoke()`. -/
def revoke (w : World) (t : ApiToken) : ApiToken :=
  { t with isActive := false, revokedAt := some w.now }

/-! ## `_authenticate_api_request` -/

inductive Credential
  | bearer (rawKey : Str)
  /-- A browser session that is signed in. -/
  | session
  | anonymous
  deriving DecidableEq, Repr

def refusal : Rejection → Answer
  | .revoked => .error 401 "Token revoked"
  | .expired expiredAt => .expired expiredAt
  | .userInactive => .error 401 "Account is deactivated"

/-- Who calls, with the token; the endpoint goes on as `k` says. -/
def authenticated (env : Env) (credential : Credential)
    (k : Option ApiToken → Prog World Answer) : Prog World Answer :=
  match credential with
  | .anonymous => return .error 401 "Authentication required"
  | .session => k none
  | .bearer rawKey => do
      let found ← .read (lookup env rawKey)
      match found with
      | .unknown => return .error 401 "Invalid token"
      | .several => return .raised "MultipleObjectsReturned"
      | .refused _ reason => return refusal reason
      | .accepted t => do
          .write (saveToken t.id touch)
          k (some t)

/-! ## `api_auth_token` -/

/-- A login, the key that is drawn for it, and what the lockout says before and after the
password is looked at. -/
structure Login where
  username : Str
  password : Str
  hours : Hours
  rawKey : RawKey
  isAllowed : Bool
  lockedOut : Bool
  deriving DecidableEq, Repr

/-- `authenticate(request, username=…, password=…)`, which gives active users only. -/
def signIn (env : Env) (l : Login) (w : World) : Option User :=
  ((env.checkPassword (strip l.username) l.password).bind (findUser w)).filter User.isActive

/-- The newest row, the first of equals. -/
def newest : List ApiToken → Option ApiToken
  | [] => none
  | t :: ts =>
      match newest ts with
      | none => some t
      | some u => if t.createdAt < u.createdAt then some u else some t

/-- The active login rows of a user. -/
def isLogin (user : ℕ) (t : ApiToken) : Bool :=
  t.user = user && t.tokenType = .login && t.isActive

/-- `APIToken.objects.filter(user=…, token_type="login", is_active=True).first()`. -/
def existingLogin (user : ℕ) (w : World) : Option ApiToken :=
  newest (w.tokens.filter (isLogin user))

def loginToken (user : ℕ) (expiresAt : ℤ) : NewToken where
  user := user
  name := "Login token".toList
  tokenType := .login
  accessLevel := .unset
  expiresAt := some expiresAt

def insertLogin (env : Env) (user : ℕ) (rawKey : RawKey) (expiresAt : ℤ) (w : World) : World :=
  (insertToken ((loginToken user expiresAt).row env.sha256 rawKey w.now) w).2

/-- The write of a login, and its answer. -/
def upsert (env : Env) (rawKey : RawKey) (user : ℕ) (expiresAt : ℤ) :
    Option ApiToken → Prog World Answer
  | some row => do
      .write (saveToken row.id (renew env rawKey expiresAt))
      return .token rawKey.text user expiresAt
  | none => do
      .write (insertLogin env user rawKey expiresAt)
      return .token rawKey.text user expiresAt

/-- The login of a user whose password is right. -/
def grantLogin (env : Env) (l : Login) (user : User) : Prog World Answer :=
  match resolveTokenExpiry env l.hours with
  | .error e => return .raised e
  | .ok hours => do
      let read ← .read fun w => (expiry hours w.now, existingLogin user.id w)
      upsert env l.rawKey user.id read.1 read.2

def lockout : Answer := .error 403 "Too many failed login attempts. Please try again later."

def checkLogin (env : Env) (l : Login) : Prog World Answer := do
  let user ← .read (signIn env l)
  if l.lockedOut then return lockout
  else match user with
    | none => return .error 401 "Invalid credentials"
    | some user => grantLogin env l user

def apiAuthToken (env : Env) (l : Login) : Prog World Answer :=
  if strip l.username = [] ∨ l.password = [] then
    return .error 400 "username and password are required"
  else if ¬ l.isAllowed then return lockout
  else checkLogin env l

/-! ## `api_auth_token_refresh`, `api_auth_logout` and `api_auth_user_deactivate` -/

/-- The write of a refresh, with the clock before it. -/
def renewAt (env : Env) (rawKey : RawKey) (hours : ℤ) (t : ApiToken) (w : World) : ℤ × World :=
  (expiry hours w.now, saveToken t.id (renew env rawKey (expiry hours w.now)) w)

def refreshKey (env : Env) (rawKey : RawKey) (hours : Hours) (t : ApiToken) : Prog World Answer :=
  match resolveTokenExpiry env hours with
  | .error e => return .raised e
  | .ok hours => do
      let expiresAt ← .stmt (renewAt env rawKey hours t)
      return .token rawKey.text t.user expiresAt

def refresh (env : Env) (rawKey : RawKey) (hours : Hours) : Option ApiToken → Prog World Answer
  | none => return .error 403 "Only login tokens can be refreshed"
  | some t =>
      if t.tokenType ≠ .login then return .error 403 "Only login tokens can be refreshed"
      else refreshKey env rawKey hours t

def logout : Option ApiToken → Prog World Answer
  | none => return .message "Logged out"
  | some t => do
      .write (saveToken t.id revoke)
      return .message "Logged out"

/-- `_require_auth_token`. -/
def isAuthToken (t : ApiToken) : Bool := t.tokenType = .manual && t.accessLevel = .auth

def closeTokens (user : ℕ) : Prog World Answer := do
  .write fun w => revokeTokens (fun t => t.user = user && t.isActive) w.now w
  return .message "User deactivated"

def deactivateUser (user : ℕ) (w : World) : World :=
  { w with users := Table.alter User.id user (fun u => { u with isActive := false }) w.users }

def closeUser (user : ℕ) : Prog World Answer := do
  .write (deactivateUser user)
  closeTokens user

def findTarget (user : ℕ) : Prog World Answer := do
  let target ← .read fun w => findUser w user
  match target with
  | none => return .error 404 "User not found"
  | some target => closeUser target.id

def deactivate (user : ℕ) : Option ApiToken → Prog World Answer
  | none => return .error 403 "Auth-level token required"
  | some t =>
      if isAuthToken t then findTarget user else return .error 403 "Auth-level token required"

/-! ## The endpoints together -/

inductive Job
  | login (l : Login)
  | refresh (credential : Credential) (hours : Hours) (rawKey : RawKey)
  | logout (credential : Credential)
  | deactivate (credential : Credential) (user : ℕ)
  /-- `create_token` with its default type. -/
  | mint (user : ℕ) (level : AccessLevel) (rawKey : RawKey)
  | elapse (microseconds : ℕ)
  deriving DecidableEq, Repr

def manualToken (user : ℕ) (level : AccessLevel) : NewToken where
  user := user
  name := "API Token".toList
  tokenType := .manual
  accessLevel := level

def Job.program (env : Env) : Job → Prog World Answer
  | .login l => apiAuthToken env l
  | .refresh credential hours rawKey =>
      authenticated env credential (Logins.refresh env rawKey hours)
  | .logout credential => authenticated env credential Logins.logout
  | .deactivate credential user => authenticated env credential (Logins.deactivate user)
  | .mint user level rawKey => do
      .write fun w => (insertToken ((manualToken user level).row env.sha256 rawKey w.now) w).2
      return .minted
  | .elapse microseconds => do
      .write fun w => { w with now := w.now + microseconds }
      return .elapsed

/-- The key that is drawn for a call. -/
def Job.draw : Job → Option RawKey
  | .login l => some l.rawKey
  | .refresh _ _ rawKey | .mint _ _ rawKey => some rawKey
  | .logout _ | .deactivate _ _ | .elapse _ => none

/-- The server after these turns, from users without a token. -/
def served (env : Env) (now : ℤ) (users : List User) (turns : List (Turn Job)) :
    Server Job (Prog World Answer) World :=
  serve (Job.program env) { now := now, users := users } turns

end CwStation.Logins
