import CwStation.Model.OAuth

/-! # The places of the token endpoints

Between two statements an endpoint holds what it has read. Its places are a datatype, on which
invariants can speak of all requests at once; the programs of the endpoints are these places. -/

namespace CwStation.OAuth

open Auth Requests Threads

/-- The places of `expire_unredeemed_codes`. -/
inductive Sweep
  | begin
  | select (cutoff : ℤ)
  | stamp (cutoff : ℤ) (tokenIds : List ℕ)
  | revoke (cutoff : ℤ) (tokenIds : List ℕ) (revokedAt : ℤ)
  | scrub (cutoff : ℤ)
  deriving DecidableEq, Repr

/-- Who has called a sweep. -/
inductive Caller
  | alone
  | expired
  | grant (c : Consent) (apiToken : ApiToken)
  deriving DecidableEq, Repr

inductive Place
  | done (a : Answer)
  | find (r : TokenRequest)
  | age (r : TokenRequest) (row : AuthorizationCode)
  | stamp (r : TokenRequest) (row : AuthorizationCode)
  | claim (r : TokenRequest) (row : AuthorizationCode) (usedAt : ℤ)
  | mint (c : Consent)
  | mintAt (c : Consent) (createdAt : ℤ)
  | sweep (s : Sweep) (caller : Caller)
  | issue (c : Consent) (apiToken : ApiToken)
  | issueAt (c : Consent) (apiToken : ApiToken) (createdAt : ℤ)
  | elapse (microseconds : ℕ)
  deriving DecidableEq, Repr

variable {env : Env}

/-! ## The programs at the places -/

def Sweep.program (env : Env) : Sweep → Prog World ℕ
  | .begin => expireUnredeemedCodes env
  | .select cutoff => selectStale cutoff
  | .stamp cutoff tokenIds => revokeStale cutoff tokenIds
  | .revoke cutoff tokenIds revokedAt => revokeAt cutoff tokenIds revokedAt
  | .scrub cutoff => scrubStale cutoff

def Caller.program : Caller → ℕ → Prog World Answer
  | .alone, count => return .swept count
  | .expired, _ => return invalidGrant "Code expired"
  | .grant c apiToken, _ => issueCode c apiToken

def Place.program (env : Env) : Place → Prog World Answer
  | .done a => return a
  | .find r => readRow env r
  | .age r row => checkAge env r row
  | .stamp _ row => redeem row
  | .claim _ row usedAt => claimAt row usedAt
  | .mint c => createToken env.sha256 (newToken env c) c.rawKey >>= afterMint env c
  | .mintAt c createdAt =>
      Prog.stmt (insertToken ((newToken env c).row env.sha256 c.rawKey createdAt)) >>=
        afterMint env c
  | .sweep s caller => s.program env >>= caller.program
  | .issue c apiToken => issueCode c apiToken
  | .issueAt c apiToken createdAt => OAuth.issueAt c apiToken createdAt
  | .elapse microseconds => do
      .write fun w => { w with now := w.now + microseconds }
      return .elapsed

/-! ## The steps from place to place -/

def Caller.place : Caller → ℕ → Place
  | .alone, count => .done (.swept count)
  | .expired, _ => .done (invalidGrant "Code expired")
  | .grant c apiToken, _ => .issue c apiToken

/-- Where a request goes with the row it has read. -/
def rowPlace (r : TokenRequest) (row : AuthorizationCode) : Place :=
  if r.redirectUri ≠ [] ∧ r.redirectUri ≠ row.redirectUri then
    .done (invalidGrant "redirect_uri mismatch")
  else if row.usedAt ≠ none then .done (invalidGrant "Code already used")
  else .age r row

def foundPlace (r : TokenRequest) : Option AuthorizationCode → Place
  | none => .done (invalidGrant "Unknown code")
  | some row => rowPlace r row

def pkcePlace (env : Env) (r : TokenRequest) (row : AuthorizationCode) : Place :=
  match verifyPkce env r.codeVerifier row.codeChallenge "S256".toList with
  | .error e => .done (.raised e)
  | .ok false => .done (invalidGrant "PKCE verification failed")
  | .ok true => .stamp r row

/-- Where a request goes at the time it has read. -/
def agePlace (env : Env) (r : TokenRequest) (row : AuthorizationCode) (now : ℤ) : Place :=
  if env.life < now - row.createdAt then .sweep .begin .expired else pkcePlace env r row

def selectPlace (caller : Caller) (cutoff : ℤ) (tokenIds : List ℕ) : Place :=
  if tokenIds = [] then caller.place 0 else .sweep (.stamp cutoff tokenIds) caller

def Place.next (env : Env) : Place → World → Place × World
  | .done a, w => (.done a, w)
  | .find r, w => (foundPlace r (findCode r.code w), w)
  | .age r row, w => (agePlace env r row w.now, w)
  | .stamp r row, w => (.claim r row w.now, w)
  | .claim _ row usedAt, w =>
      (.done (claimAnswer row (OAuth.claim row.id usedAt w).1), (OAuth.claim row.id usedAt w).2)
  | .mint c, w => (.mintAt c w.now, w)
  | .mintAt c createdAt, w =>
      let minted := insertToken ((newToken env c).row env.sha256 c.rawKey createdAt) w
      (.sweep .begin (.grant c minted.1), minted.2)
  | .sweep .begin caller, w => (.sweep (.select (w.now - env.life)) caller, w)
  | .sweep (.select cutoff) caller, w => (selectPlace caller cutoff (staleTokens cutoff w), w)
  | .sweep (.stamp cutoff tokenIds) caller, w => (.sweep (.revoke cutoff tokenIds w.now) caller, w)
  | .sweep (.revoke cutoff tokenIds revokedAt) caller, w =>
      (.sweep (.scrub cutoff) caller, revokeTokens (revokes tokenIds) revokedAt w)
  | .sweep (.scrub cutoff) caller, w =>
      (caller.place (OAuth.scrub cutoff w).1, (OAuth.scrub cutoff w).2)
  | .issue c apiToken, w => (.issueAt c apiToken w.now, w)
  | .issueAt c apiToken createdAt, w =>
      let inserted := insertCode (newCode c apiToken createdAt) w
      (.done (issueAnswer c inserted.1), inserted.2)
  | .elapse microseconds, w => (.done .elapsed, { w with now := w.now + microseconds })

/-- Where a request begins. -/
def enter (env : Env) : Job → Place
  | .authorize c =>
      if ¬ env.isSafeRedirectUri c.redirectUri then
        .done (.badRequest "invalid_request"
          (some "redirect_uri must be https, or http on a loopback host"))
      else if c.decision ≠ "allow".toList then
        .done (.redirect c.redirectUri [("error".toList, "access_denied".toList),
          ("state".toList, c.state)])
      else .mint c
  | .token r =>
      if r.grantType ≠ "authorization_code".toList then
        .done (.badRequest "unsupported_grant_type" none)
      else .find r
  | .sweep => .sweep .begin .alone
  | .elapse microseconds => .elapse microseconds

/-! ## The endpoints go from place to place -/

theorem program_caller (caller : Caller) (count : ℕ) :
    (caller.place count).program env = caller.program count := by
  cases caller <;> rfl

theorem program_foundPlace (r : TokenRequest) (found : Option AuthorizationCode) :
    (match found with
      | none => return invalidGrant "Unknown code"
      | some row => checkRow env r row) = (foundPlace r found).program env := by
  cases found with
  | none => rfl
  | some row =>
    simp only [foundPlace, rowPlace, checkRow]
    by_cases hredirect : r.redirectUri ≠ [] ∧ r.redirectUri ≠ row.redirectUri
    · rw [if_pos hredirect, if_pos hredirect]
      rfl
    · rw [if_neg hredirect, if_neg hredirect]
      by_cases hused : row.usedAt ≠ none
      · rw [if_pos hused, if_pos hused]
        rfl
      · rw [if_neg hused, if_neg hused]
        rfl

theorem program_pkcePlace (r : TokenRequest) (row : AuthorizationCode) :
    checkPkce env r row = (pkcePlace env r row).program env := by
  rw [checkPkce, pkcePlace]
  cases verifyPkce env r.codeVerifier row.codeChallenge "S256".toList with
  | error e => rfl
  | ok verified => cases verified <;> rfl

theorem program_agePlace (r : TokenRequest) (row : AuthorizationCode) (now : ℤ) :
    (if env.life < now - row.createdAt then codeExpired env else checkPkce env r row) =
      (agePlace env r row now).program env := by
  rw [agePlace]
  by_cases hold : env.life < now - row.createdAt
  · rw [if_pos hold, if_pos hold]
    rfl
  · rw [if_neg hold, if_neg hold]
    exact program_pkcePlace r row

theorem program_selectPlace (caller : Caller) (cutoff : ℤ) (tokenIds : List ℕ) :
    (if tokenIds = [] then return 0 else revokeStale cutoff tokenIds : Prog World ℕ) >>=
      caller.program = (selectPlace caller cutoff tokenIds).program env := by
  rw [selectPlace]
  by_cases hnil : tokenIds = []
  · rw [if_pos hnil, if_pos hnil]
    exact (program_caller caller 0).symm
  · rw [if_neg hnil, if_neg hnil]
    rfl

/-- A program takes the step of its place. -/
theorem program_next (p : Place) (w : World) :
    next (p.program env) w = ((p.next env w).1.program env, (p.next env w).2) := by
  cases p with
  | done | stamp | claim | mint | mintAt | issue | issueAt | elapse => rfl
  | find r => exact congrArg (·, w) (program_foundPlace r _)
  | age r row => exact congrArg (·, w) (program_agePlace r row w.now)
  | sweep s caller =>
    cases s with
    | begin | stamp | revoke => rfl
    | select cutoff => exact congrArg (·, w) (program_selectPlace caller cutoff _)
    | scrub cutoff => exact congrArg (·, _) (program_caller caller _).symm

theorem program_enter (job : Job) : job.program env = (enter env job).program env := by
  cases job with
  | sweep | elapse => rfl
  | authorize c =>
    simp only [Job.program, authorize, enter]
    by_cases hsafe : ¬ env.isSafeRedirectUri c.redirectUri
    · rw [if_pos hsafe, if_pos hsafe]
      rfl
    · rw [if_neg hsafe, if_neg hsafe]
      by_cases hallow : c.decision ≠ "allow".toList
      · rw [if_pos hallow, if_pos hallow]
        rfl
      · rw [if_neg hallow, if_neg hallow]
        rfl
  | token r =>
    simp only [Job.program, token, enter]
    by_cases hgrant : r.grantType ≠ "authorization_code".toList
    · rw [if_pos hgrant, if_pos hgrant]
      rfl
    · rw [if_neg hgrant, if_neg hgrant]
      rfl

/-- The server with every request at its place. -/
def Site (env : Env) (now : ℤ) (turns : List (Turn Job)) : Server Job Place World :=
  Server.run (enter env) (Place.next env) { state := { now := now } } turns

theorem served_eq (env : Env) (now : ℤ) (turns : List (Turn Job)) :
    served env now turns = (Site env now turns).map (Place.program env) := by
  rw [Site, ← Server.run_map program_enter program_next]
  rfl

end CwStation.OAuth
