import CwStation.Model.Logins

/-! # The places of the auth endpoints -/

namespace CwStation.Logins

open Auth Requests Threads

/-- The endpoints for those who are signed in. -/
inductive Use
  | refresh (hours : Hours) (rawKey : RawKey)
  | logout
  | deactivate (user : ℕ)
  deriving DecidableEq, Repr

inductive Place
  | done (a : Answer)
  | signIn (l : Login)
  | find (l : Login) (user : User) (hours : ℤ)
  | save (l : Login) (user : ℕ) (expiresAt : ℤ) (row : ApiToken)
  | insert (l : Login) (user : ℕ) (expiresAt : ℤ)
  | look (rawKey : Str) (use : Use)
  | touch (t : ApiToken) (use : Use)
  | renew (rawKey : RawKey) (hours : ℤ) (t : ApiToken)
  | revoke (t : ApiToken)
  | target (user : ℕ)
  | closeUser (user : ℕ)
  | closeTokens (user : ℕ)
  | mint (user : ℕ) (level : AccessLevel) (rawKey : RawKey)
  | elapse (microseconds : ℕ)
  deriving DecidableEq, Repr

variable {env : Env}

def Use.program (env : Env) : Use → Option ApiToken → Prog World Answer
  | .refresh hours rawKey => Logins.refresh env rawKey hours
  | .logout => Logins.logout
  | .deactivate user => Logins.deactivate user

/-! ## The programs at the places -/

def Place.program (env : Env) : Place → Prog World Answer
  | .done a => return a
  | .signIn l => checkLogin env l
  | .find l user hours => do
      let read ← .read fun w => (expiry hours w.now, existingLogin user.id w)
      upsert env l.rawKey user.id read.1 read.2
  | .save l user expiresAt row => upsert env l.rawKey user expiresAt (some row)
  | .insert l user expiresAt => upsert env l.rawKey user expiresAt none
  | .look rawKey use => authenticated env (.bearer rawKey) (use.program env)
  | .touch t use => do
      .write (saveToken t.id Logins.touch)
      use.program env (some t)
  | .renew rawKey hours t => do
      let expiresAt ← .stmt (renewAt env rawKey hours t)
      return .token rawKey.text t.user expiresAt
  | .revoke t => Logins.logout (some t)
  | .target user => findTarget user
  | .closeUser user => Logins.closeUser user
  | .closeTokens user => Logins.closeTokens user
  | .mint user level rawKey => Job.program env (.mint user level rawKey)
  | .elapse microseconds => Job.program env (.elapse microseconds)

/-! ## The steps from place to place -/

/-- Where a signed-in call goes on. -/
def Use.place (env : Env) : Use → Option ApiToken → Place
  | .refresh _ _, none => .done (.error 403 "Only login tokens can be refreshed")
  | .refresh hours rawKey, some t =>
      if t.tokenType ≠ .login then .done (.error 403 "Only login tokens can be refreshed")
      else match resolveTokenExpiry env hours with
        | .error e => .done (.raised e)
        | .ok hours => .renew rawKey hours t
  | .logout, none => .done (.message "Logged out")
  | .logout, some t => .revoke t
  | .deactivate _, none => .done (.error 403 "Auth-level token required")
  | .deactivate user, some t =>
      if isAuthToken t then .target user else .done (.error 403 "Auth-level token required")

def lookPlace (use : Use) : Lookup → Place
  | .unknown => .done (.error 401 "Invalid token")
  | .several => .done (.raised "MultipleObjectsReturned")
  | .refused _ reason => .done (refusal reason)
  | .accepted t => .touch t use

def grantPlace (env : Env) (l : Login) : Option User → Place
  | none => .done (.error 401 "Invalid credentials")
  | some user =>
      match resolveTokenExpiry env l.hours with
      | .error e => .done (.raised e)
      | .ok hours => .find l user hours

def signInPlace (env : Env) (l : Login) (user : Option User) : Place :=
  if l.lockedOut then .done lockout else grantPlace env l user

def upsertPlace (l : Login) (user : ℕ) (expiresAt : ℤ) : Option ApiToken → Place
  | some row => .save l user expiresAt row
  | none => .insert l user expiresAt

def targetPlace : Option User → Place
  | none => .done (.error 404 "User not found")
  | some target => .closeUser target.id

def Place.next (env : Env) : Place → World → Place × World
  | .done a, w => (.done a, w)
  | .signIn l, w => (signInPlace env l (Logins.signIn env l w), w)
  | .find l user hours, w =>
      (upsertPlace l user.id (expiry hours w.now) (existingLogin user.id w), w)
  | .save l user expiresAt row, w =>
      (.done (.token l.rawKey.text user expiresAt),
        saveToken row.id (Logins.renew env l.rawKey expiresAt) w)
  | .insert l user expiresAt, w =>
      (.done (.token l.rawKey.text user expiresAt), insertLogin env user l.rawKey expiresAt w)
  | .look rawKey use, w => (lookPlace use (lookup env rawKey w), w)
  | .touch t use, w => (use.place env (some t), saveToken t.id Logins.touch w)
  | .renew rawKey hours t, w =>
      (.done (.token rawKey.text t.user (expiry hours w.now)),
        saveToken t.id (Logins.renew env rawKey (expiry hours w.now)) w)
  | .revoke t, w => (.done (.message "Logged out"), saveToken t.id Logins.revoke w)
  | .target user, w => (targetPlace (findUser w user), w)
  | .closeUser user, w => (.closeTokens user, deactivateUser user w)
  | .closeTokens user, w =>
      (.done (.message "User deactivated"),
        revokeTokens (fun t => t.user = user && t.isActive) w.now w)
  | .mint user level rawKey, w =>
      (.done .minted, (insertToken ((manualToken user level).row env.sha256 rawKey w.now) w).2)
  | .elapse microseconds, w => (.done .elapsed, { w with now := w.now + microseconds })

def credentialPlace (env : Env) (use : Use) : Credential → Place
  | .anonymous => .done (.error 401 "Authentication required")
  | .session => use.place env none
  | .bearer rawKey => .look rawKey use

/-- Where a request begins. -/
def enter (env : Env) : Job → Place
  | .login l =>
      if strip l.username = [] ∨ l.password = [] then
        .done (.error 400 "username and password are required")
      else if ¬ l.isAllowed then .done lockout
      else .signIn l
  | .refresh credential hours rawKey => credentialPlace env (.refresh hours rawKey) credential
  | .logout credential => credentialPlace env .logout credential
  | .deactivate credential user => credentialPlace env (.deactivate user) credential
  | .mint user level rawKey => .mint user level rawKey
  | .elapse microseconds => .elapse microseconds

/-! ## The endpoints go from place to place -/

theorem program_use (use : Use) (t : Option ApiToken) :
    use.program env t = (use.place env t).program env := by
  cases use with
  | logout => cases t <;> rfl
  | deactivate user =>
    cases t with
    | none => rfl
    | some t =>
      simp only [Use.program, deactivate, Use.place]
      by_cases hauth : isAuthToken t = true
      · rw [if_pos hauth, if_pos hauth]
        rfl
      · rw [if_neg hauth, if_neg hauth]
        rfl
  | refresh hours rawKey =>
    cases t with
    | none => rfl
    | some t =>
      simp only [Use.program, refresh, refreshKey, Use.place]
      by_cases hlogin : t.tokenType ≠ .login
      · rw [if_pos hlogin, if_pos hlogin]
        rfl
      · rw [if_neg hlogin, if_neg hlogin]
        cases resolveTokenExpiry env hours <;> rfl

theorem program_signInPlace (l : Login) (user : Option User) :
    (if l.lockedOut then return lockout
      else match user with
        | none => return .error 401 "Invalid credentials"
        | some user => grantLogin env l user : Prog World Answer) =
      (signInPlace env l user).program env := by
  rw [signInPlace]
  by_cases hlocked : l.lockedOut = true
  · rw [if_pos hlocked, if_pos hlocked]
    rfl
  · rw [if_neg hlocked, if_neg hlocked]
    cases user with
    | none => rfl
    | some user =>
      simp only [grantLogin, grantPlace]
      cases resolveTokenExpiry env l.hours <;> rfl

theorem program_lookPlace (use : Use) (found : Lookup) :
    (match found with
      | .unknown => return .error 401 "Invalid token"
      | .several => return .raised "MultipleObjectsReturned"
      | .refused _ reason => return refusal reason
      | .accepted t => do
          .write (saveToken t.id touch)
          use.program env (some t) : Prog World Answer) = (lookPlace use found).program env := by
  cases found <;> rfl

/-- A program takes the step of its place. -/
theorem program_next (p : Place) (w : World) :
    next (p.program env) w = ((p.next env w).1.program env, (p.next env w).2) := by
  cases p with
  | done | save | insert | renew | revoke | closeUser | closeTokens | mint | elapse => rfl
  | signIn l => exact congrArg (·, w) (program_signInPlace l _)
  | find l user hours =>
    show (upsert env l.rawKey user.id _ (existingLogin user.id w), w) = _
    simp only [Place.next]
    cases existingLogin user.id w <;> rfl
  | look rawKey use => exact congrArg (·, w) (program_lookPlace use _)
  | touch t use => exact congrArg (·, _) (program_use use (some t))
  | target user =>
    simp only [Place.next]
    show ((match findUser w user with
      | none => return .error 404 "User not found"
      | some target => closeUser target.id : Prog World Answer), w) = _
    cases findUser w user <;> rfl

theorem program_credential (use : Use) (credential : Credential) :
    authenticated env credential (use.program env) =
      (credentialPlace env use credential).program env := by
  cases credential with
  | anonymous | bearer => rfl
  | session => exact program_use use none

theorem program_enter (job : Job) : job.program env = (enter env job).program env := by
  cases job with
  | mint | elapse => rfl
  | refresh credential hours rawKey => exact program_credential (.refresh hours rawKey) credential
  | logout credential => exact program_credential .logout credential
  | deactivate credential user => exact program_credential (.deactivate user) credential
  | login l =>
    simp only [Job.program, apiAuthToken, enter]
    by_cases hempty : strip l.username = [] ∨ l.password = []
    · rw [if_pos hempty, if_pos hempty]
      rfl
    · rw [if_neg hempty, if_neg hempty]
      by_cases hallowed : ¬ l.isAllowed
      · rw [if_pos hallowed, if_pos hallowed]
        rfl
      · rw [if_neg hallowed, if_neg hallowed]
        rfl

/-- The server with every request at its place. -/
def Site (env : Env) (now : ℤ) (users : List User) (turns : List (Turn Job)) :
    Server Job Place World :=
  Server.run (enter env) (Place.next env) { state := { now := now, users := users } } turns

theorem served_eq (env : Env) (now : ℤ) (users : List User) (turns : List (Turn Job)) :
    served env now users turns = (Site env now users turns).map (Place.program env) := by
  rw [Site, ← Server.run_map program_enter program_next]
  rfl

end CwStation.Logins
