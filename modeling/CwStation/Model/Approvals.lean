import CwStation.Library.Scripts
import CwStation.Library.Table
import CwStation.Model.Tasks

/-! # Approval requests: `apps/approvals/services.py`, `permissions.py` and `models.py`

Every call is a script over the table of requests. What a kind's callback does to the rest of the
database is a change of the `world`. -/

namespace CwStation.Approvals

open Tasks (Time)
open Scripts

/-! ## Rows -/

/-- `ApprovalRequest.Status`. -/
inductive Status
  | pending
  | approved
  | rejected
  | canceled
  | expired
  deriving DecidableEq

/-- The status as the messages have it: `get_status_display().lower()`. -/
def Status.display : Status → Str
  | .pending => "pending".toList
  | .approved => "approved".toList
  | .rejected => "rejected".toList
  | .canceled => "canceled".toList
  | .expired => "expired".toList

/-- An `ApprovalRequest`, with its assignees. -/
structure ApprovalRequest where
  pk : ℕ
  kind : Str
  requestedBy : Option ℕ
  assignees : List ℕ := []
  status : Status := .pending
  decidedBy : Option ℕ := none
  decidedAt : Option Time := none
  decisionNote : Str := []
  expiresAt : Option Time := none
  callbackError : Str := []
  updatedAt : Time
  deriving DecidableEq

namespace ApprovalRequest

def isPending (req : ApprovalRequest) : Bool := req.status = .pending

/-- `is_overdue` at a moment. -/
def overdueAt (now : Time) (req : ApprovalRequest) : Bool :=
  req.isPending && req.expiresAt.any (· ≤ now)

/-- `effective_status` at a moment. -/
def effectiveStatus (now : Time) (req : ApprovalRequest) : Status :=
  if req.overdueAt now then .expired else req.status

/-- The fields of a decision. -/
def decision (req : ApprovalRequest) : Status × Option ℕ × Option Time × Str :=
  (req.status, req.decidedBy, req.decidedAt, req.decisionNote)

end ApprovalRequest

/-- A user, `AnonymousUser` or none at all. -/
structure Actor where
  pk : Option ℕ := none
  isActive : Bool := false
  isStaff : Bool := false

/-- `ApprovalKind`: a hook that raises answers `none`, a callback that raises its traceback. -/
structure ApprovalKind (ω : Type) where
  onDecision : Option (ApprovalRequest → ω → Option Str × ω) := none
  canDecide : Option (Actor → ApprovalRequest → Option Bool) := none

/-- The settings and the registry of kinds. -/
structure Settings (ω : Type) where
  enabled : Bool := true
  allowSelfApprove : Bool := false
  staffOverride : Bool := true
  getKind : Str → Option (ApprovalKind ω) := fun _ => none

def Settings.callback {ω : Type} (cfg : Settings ω) (kind : Str) :
    Option (ApprovalRequest → ω → Option Str × ω) :=
  (cfg.getKind kind).bind ApprovalKind.onDecision

/-- The clock, the requests and the rest of the database, with the audit rows and the
`approval_decided` signals. -/
structure Store (ω : Type) where
  clock : Time
  requests : List ApprovalRequest
  world : ω
  audit : List (ℕ × Option ℕ × Str) := []
  signals : List (ℕ × Option ℕ × Str) := []

/-- What `_claim` and `mark_expired` write: expiry names nobody. -/
structure Claim where
  status : Status
  terminal : status ≠ .pending
  decidedAt : Time
  decider : Option (Option ℕ × Str) := none

def Claim.apply (claim : Claim) (req : ApprovalRequest) : ApprovalRequest :=
  let req := { req with status := claim.status, decidedAt := some claim.decidedAt }
  match claim.decider with
  | some (actor, note) => { req with decidedBy := actor, decisionNote := note }
  | none => req

/-! ## Statements -/

inductive Statement
  | now
  | load (pk : ℕ)
  | assignees (pk : ℕ)
  | overdue (now : Time) (scope : ApprovalRequest → Bool)
  | claim (pk : ℕ) (claim : Claim)
  | callback (copy : ApprovalRequest)
  | storeError (pk : ℕ) (traceback : Str)
  | save (copy : ApprovalRequest)
  | log (pk : ℕ) (actor : Option ℕ) (source : Str)
  | signal (pk : ℕ) (actor : Option ℕ) (source : Str)
  | elapse (d : ℕ)

abbrev Answer : Statement → Type
  | .now => Time
  | .load _ => Option ApprovalRequest
  | .assignees _ => List ℕ
  | .overdue _ _ => List ℕ
  | .claim _ _ => Bool
  | .callback _ => Option Str
  | .storeError _ _ | .save _ | .log _ _ _ | .signal _ _ _ | .elapse _ => Unit

abbrev Call := Script Statement Answer

abbrev perform (op : Statement) : Call (Answer op) := Script.perform op

namespace Store

variable {ω : Type}

def request (s : Store ω) (pk : ℕ) : Option ApprovalRequest :=
  Table.get ApprovalRequest.pk s.requests pk

def alter (s : Store ω) (pk : ℕ) (f : ApprovalRequest → ApprovalRequest) : Store ω :=
  { s with requests := Table.alter ApprovalRequest.pk pk f s.requests }

/-- The query of `mark_expired`, oldest expiry first. -/
def overdue (now : Time) (scope : ApprovalRequest → Bool) (s : Store ω) : List ApprovalRequest :=
  (s.requests.filter fun r => scope r && r.overdueAt now).mergeSort
    fun a b => a.expiresAt.getD 0 ≤ b.expiresAt.getD 0

/-- `save(update_fields=…)` of `_finish`. -/
def save (copy : ApprovalRequest) (s : Store ω) : Store ω :=
  s.alter copy.pk fun row => { row with
    status := copy.status
    decidedBy := copy.decidedBy
    decidedAt := copy.decidedAt
    decisionNote := copy.decisionNote
    callbackError := copy.callbackError
    updatedAt := s.clock }

/-- The callback of the request's kind, on the copy it is given. -/
def callback (cfg : Settings ω) (copy : ApprovalRequest) (s : Store ω) : Option Str × Store ω :=
  match cfg.callback copy.kind with
  | none => (none, s)
  | some onDecision =>
      let (raised, world) := onDecision copy s.world
      (raised, { s with world })

end Store

/-- What a statement answers and does. -/
def exec {ω : Type} (cfg : Settings ω) : (op : Statement) → Store ω → Answer op × Store ω
  | .now, s => (s.clock, s)
  | .load pk, s => (s.request pk, s)
  | .assignees pk, s => (((s.request pk).map ApprovalRequest.assignees).getD [], s)
  | .overdue now scope, s => ((s.overdue now scope).map ApprovalRequest.pk, s)
  | .claim pk claim, s =>
      if (s.request pk).any ApprovalRequest.isPending then (true, s.alter pk claim.apply)
      else (false, s)
  | .callback copy, s => s.callback cfg copy
  | .storeError pk traceback, s =>
      ((), s.alter pk fun row => { row with callbackError := traceback })
  | .save copy, s => ((), s.save copy)
  | .log pk actor source, s => ((), { s with audit := s.audit ++ [(pk, actor, source)] })
  | .signal pk actor source, s => ((), { s with signals := s.signals ++ [(pk, actor, source)] })
  | .elapse d, s => ((), { s with clock := s.clock + d })

/-! ## Permissions -/

namespace Actor

/-- `permissions._pk`: a deactivated account is nobody. -/
def actingPk (user : Actor) : Option ℕ := if user.isActive then user.pk else none

def staff (user : Actor) : Bool := user.isStaff && user.isActive

/-- `can_cancel`. -/
def canCancel (user : Actor) (req : ApprovalRequest) : Bool :=
  match user.actingPk with
  | none => false
  | some pk => req.isPending && (req.requestedBy = some pk || user.staff)

end Actor

variable {ω : Type}

/-- The assignee gate of `can_decide`. -/
def eligible (cfg : Settings ω) (user : Actor) (pk : ℕ) (req : ApprovalRequest) : Call Bool := do
  let assignees ← perform (.assignees req.pk)
  if assignees.isEmpty then return user.staff
  let assignees ← perform (.assignees req.pk)
  return assignees.contains pk || (user.staff && cfg.staffOverride)

/-- `can_decide`. -/
def canDecide (cfg : Settings ω) (user : Actor) (req : ApprovalRequest) : Call Bool :=
  match user.actingPk with
  | none => return false
  | some pk =>
      if !req.isPending then return false
      else if req.requestedBy = some pk && !cfg.allowSelfApprove then return false
      else do
        if !(← eligible cfg user pk req) then return false
        return match (cfg.getKind req.kind).bind ApprovalKind.canDecide with
          | none => true
          | some hook => (hook user req).getD false

/-! ## Services -/

inductive ApprovalError
  | disabled
  | notEligible (message : Str)
  | notPending (message : Str)
  | doesNotExist
  deriving DecidableEq

def alreadyMessage (status : Status) : Str :=
  "This request is already ".toList ++ status.display ++ ".".toList

/-- `_claim`. -/
def claimPending (pk : ℕ) (claim : Claim) : Call (Except ApprovalError ApprovalRequest) := do
  let updated ← perform (.claim pk claim)
  match ← perform (.load pk) with
  | none => return .error .doesNotExist
  | some req =>
      if updated then return .ok req
      else return .error (.notPending (alreadyMessage req.status))

/-- `_run_callback`, with the copy as it leaves it. -/
def runCallback (cfg : Settings ω) (req : ApprovalRequest) :
    Call (Except ApprovalError ApprovalRequest) :=
  if (cfg.callback req.kind).isNone then return .ok req
  else do
    match ← perform (.callback req) with
    | none => return .ok req
    | some traceback =>
        perform (.storeError req.pk (traceback.drop (traceback.length - 2000)))
        match ← perform (.load req.pk) with
        | none => return .error .doesNotExist
        | some req => return .ok req

/-- `_finish`. -/
def finish (cfg : Settings ω) (req : ApprovalRequest) (actor : Option ℕ) (source : Str) :
    Call (Except ApprovalError ApprovalRequest) := do
  match ← runCallback cfg req with
  | .error e => return .error e
  | .ok req =>
      perform (.save req)
      perform (.log req.pk actor source)
      perform (.signal req.pk actor source)
      return .ok req

/-- `is_overdue`, which looks at the clock for a pending request with an expiry only. -/
def isOverdue (req : ApprovalRequest) : Call Bool :=
  match req.isPending, req.expiresAt with
  | true, some expiresAt => do
      let now ← perform .now
      return expiresAt ≤ now
  | _, _ => return false

def expiry : Str := "expiry".toList

/-- What `decide` does with a request whose time is over. -/
def expireInstead (cfg : Settings ω) (pk : ℕ) : Call (Except ApprovalError ApprovalRequest) := do
  let now ← perform .now
  match ← claimPending pk { status := .expired, terminal := by decide, decidedAt := now } with
  | .error e => return .error e
  | .ok req =>
      match ← finish cfg req none expiry with
      | .error e => return .error e
      | .ok _ => return .error (.notPending "This request expired before it was decided.".toList)

def outcome (approved : Bool) : Status := if approved then .approved else .rejected

theorem outcome_ne_pending (approved : Bool) : outcome approved ≠ .pending := by
  cases approved <;> decide

/-- The claim and the finish of a call that may decide. -/
def settle (cfg : Settings ω) (pk : ℕ) (status : Status) (terminal : status ≠ .pending)
    (actor : Actor) (note source : Str) : Call (Except ApprovalError ApprovalRequest) := do
  let now ← perform .now
  match ← claimPending pk
      { status, terminal, decidedAt := now, decider := some (actor.pk, note) } with
  | .error e => return .error e
  | .ok req => finish cfg req actor.pk source

/-- `decide`. -/
def decide (cfg : Settings ω) (req : ApprovalRequest) (actor : Actor) (approved : Bool)
    (note source : Str) : Call (Except ApprovalError ApprovalRequest) :=
  if !cfg.enabled then return .error .disabled
  else do
    if ← isOverdue req then expireInstead cfg req.pk
    else if !req.isPending then return .error (.notPending (alreadyMessage req.status))
    else if !(← canDecide cfg actor req) then
      return .error (.notEligible "You are not eligible to decide this request.".toList)
    else settle cfg req.pk (outcome approved) (outcome_ne_pending approved) actor note source

/-- `cancel`. -/
def cancel (cfg : Settings ω) (req : ApprovalRequest) (actor : Actor) (note source : Str) :
    Call (Except ApprovalError ApprovalRequest) :=
  if !cfg.enabled then return .error .disabled
  else if !actor.canCancel req then
    return .error (.notEligible "Only the requester or staff can cancel this request.".toList)
  else settle cfg req.pk .canceled (by decide) actor note source

/-- One round of `mark_expired`: whether it has expired the row. -/
def expireRow (cfg : Settings ω) (now : Time) (pk : ℕ) : Call (Except ApprovalError Bool) := do
  let updated ← perform (.claim pk { status := .expired, terminal := by decide, decidedAt := now })
  if !updated then return .ok false
  match ← perform (.load pk) with
  | none => return .error .doesNotExist
  | some req =>
      match ← finish cfg req none expiry with
      | .error e => return .error e
      | .ok _ => return .ok true

def expireRows (cfg : Settings ω) (now : Time) : List ℕ → Call (Except ApprovalError ℕ)
  | [] => return .ok 0
  | pk :: pks => do
      match ← expireRow cfg now pk with
      | .error e => return .error e
      | .ok updated =>
          match ← expireRows cfg now pks with
          | .error e => return .error e
          | .ok expired => return .ok (updated.toNat + expired)

/-- `mark_expired`. -/
def markExpired (cfg : Settings ω) (scope : ApprovalRequest → Bool) (limit : Option ℤ) :
    Call (Except ApprovalError ℕ) := do
  let now ← perform .now
  let overdue ← perform (.overdue now scope)
  match limit with
  | some limit =>
      if 0 ≤ limit then expireRows cfg now (overdue.take limit.toNat)
      else expireRows cfg now overdue
  | none => expireRows cfg now overdue

/-! ## Calls -/

/-- A call on one request loads it first. -/
inductive Job
  | decide (pk : ℕ) (actor : Actor) (approved : Bool) (note source : Str)
  | cancel (pk : ℕ) (actor : Actor) (note source : Str)
  | markExpired (scope : ApprovalRequest → Bool) (limit : Option ℤ)
  | elapse (d : ℕ)

inductive Returned
  | request (r : Except ApprovalError ApprovalRequest)
  | expired (r : Except ApprovalError ℕ)
  | elapsed

/-- A call on the request that it has loaded. -/
def onRequest (pk : ℕ) (body : ApprovalRequest → Call (Except ApprovalError ApprovalRequest)) :
    Call Returned := do
  match ← perform (.load pk) with
  | none => return .request (.error .doesNotExist)
  | some req => return .request (← body req)

def Job.script (cfg : Settings ω) : Job → Call Returned
  | .decide pk actor approved note source =>
      onRequest pk fun req => Approvals.decide cfg req actor approved note source
  | .cancel pk actor note source => onRequest pk fun req => Approvals.cancel cfg req actor note source
  | .markExpired scope limit => do return .expired (← Approvals.markExpired cfg scope limit)
  | .elapse d => do
      perform (.elapse d)
      return .elapsed

abbrev Requests (ω : Type) := Session Statement Answer (Store ω) Job Returned

/-- The run of some calls. -/
def runCalls (cfg : Settings ω) (s : Store ω) (moves : List (Move Job)) : Requests ω :=
  Session.run (exec cfg) (Job.script cfg) { store := s } moves

end CwStation.Approvals
