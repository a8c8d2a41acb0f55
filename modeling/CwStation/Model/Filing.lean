import CwStation.Model.Approvals

/-! # Filing approval requests: `request_approval` of `apps/approvals/services.py`

Filing goes on beside the calls on the requests there are. -/

namespace CwStation.Approvals

open Tasks (Time seconds)
open Scripts

/-- `actionable` at a moment. -/
def ApprovalRequest.actionable (now : Time) (req : ApprovalRequest) : Bool :=
  req.isPending && !req.overdueAt now

/-- What filing reads of the settings and of the registry, with `repr`. -/
structure FilingSettings where
  maxPending : ℤ := 50
  defaultExpiresMinutes : ℤ := 0
  defaultExpiresIn : Str → Option Time := fun _ => none
  knownKeys : List Str := []
  repr : Str → Str

/-- The arguments of `request_approval` that this model knows; the assignees have primary keys. -/
structure FilingArgs where
  kind : Str
  actor : Actor
  assignees : List ℕ := []
  expiresAt : Option Time := none
  expiresIn : Option Time := none
  requireKnownKind : Bool := false
  source : Str := "web".toList

inductive FilingError
  | disabled
  | tooManyPending (message : Str)
  | unknownKind (message : Str)
  deriving DecidableEq

/-! ## Statements -/

inductive FilingStatement
  | count (now : Time) (requester : ℕ) (kind : Str)
  | insert (kind : Str) (requester : Option ℕ) (expiresAt : Option Time)
  | setAssignees (pk : ℕ) (assignees : List ℕ)

abbrev FilingAnswer : FilingStatement → Type
  | .count _ _ _ => ℕ
  | .insert _ _ _ => ApprovalRequest
  | .setAssignees _ _ => Unit

abbrev Filing := Script (Statement ⊕ FilingStatement) (Sum.elim Answer FilingAnswer)

abbrev ask (op : Statement) : Filing (Answer op) :=
  Script.perform (Sum.inl op : Statement ⊕ FilingStatement)

abbrev file (op : FilingStatement) : Filing (FilingAnswer op) :=
  Script.perform (Sum.inr op : Statement ⊕ FilingStatement)

namespace Store

variable {ω : Type}

/-- The actionable requests of a requester and a kind. -/
def outstanding (now : Time) (requester : ℕ) (kind : Str) (s : Store ω) : ℕ :=
  s.requests.countP fun r => r.actionable now && (r.requestedBy = some requester && r.kind = kind)

/-- No request is ever deleted. -/
def nextPk (s : Store ω) : ℕ := (s.requests.map ApprovalRequest.pk).foldr max 0 + 1

end Store

/-- What a statement of filing answers and does. -/
def execFiling {ω : Type} : (op : FilingStatement) → Store ω → FilingAnswer op × Store ω
  | .count now requester kind, s => (s.outstanding now requester kind, s)
  | .insert kind requester expiresAt, s =>
      let req : ApprovalRequest :=
        { pk := s.nextPk, kind, requestedBy := requester, expiresAt, updatedAt := s.clock }
      (req, { s with requests := s.requests ++ [req] })
  | .setAssignees pk assignees, s => ((), s.alter pk fun req => { req with assignees })

/-! ## `request_approval` -/

def tooManyMessage (site : FilingSettings) (outstanding : ℕ) (kind : Str) : Str :=
  "You already have ".toList ++ Nat.toDigits 10 outstanding ++ " pending ".toList ++
    site.repr kind ++ " requests (limit ".toList ++ Nat.toDigits 10 site.maxPending.toNat ++
    "). Wait for them to be decided or raise ".toList ++
    "SMALLSTACK_APPROVALS_MAX_PENDING_PER_REQUESTER.".toList

def unknownMessage (site : FilingSettings) (kind : Str) : Str :=
  let known := List.intercalate ", ".toList site.knownKeys
  "Unknown approval kind ".toList ++ site.repr kind ++ ". Known kinds: ".toList ++
    if known = [] then "(none registered)".toList else known

/-- `_check_pending_cap`. -/
def checkPendingCap (site : FilingSettings) (kind : Str) (actor : Actor) :
    Filing (Except FilingError Unit) :=
  match actor.pk with
  | none => return .ok ()
  | some requester =>
      if site.maxPending ≤ 0 then return .ok ()
      else do
        let now ← ask .now
        let outstanding ← file (.count now requester kind)
        if site.maxPending ≤ outstanding then
          return .error (.tooManyPending (tooManyMessage site outstanding kind))
        else return .ok ()

variable {ω : Type}

/-- When the request expires. -/
def expiryOf (cfg : Settings ω) (site : FilingSettings) (args : FilingArgs) : Filing (Option Time) :=
  match args.expiresAt with
  | some expiresAt => return some expiresAt
  | none =>
      let ofKind := if (cfg.getKind args.kind).isSome then site.defaultExpiresIn args.kind else none
      let byDefault := if 0 < site.defaultExpiresMinutes then
        some (seconds (60 * site.defaultExpiresMinutes)) else none
      match (args.expiresIn.or ofKind).or byDefault with
      | none => return none
      | some expiresIn => do
          let now ← ask .now
          return some (now + expiresIn)

/-- `req.assignees.set`, if any are given. -/
def assign (pk : ℕ) (assignees : List ℕ) : Filing Unit :=
  if assignees = [] then return () else file (.setAssignees pk assignees)

/-- What follows the checks: the row, its assignees and the audit row. -/
def fileRequest (cfg : Settings ω) (site : FilingSettings) (args : FilingArgs) :
    Filing (Except FilingError ApprovalRequest) := do
  let expiresAt ← expiryOf cfg site args
  let req ← file (.insert args.kind args.actor.pk expiresAt)
  assign req.pk args.assignees
  ask (.log req.pk args.actor.pk args.source)
  return .ok req

/-- `request_approval`. -/
def requestApproval (cfg : Settings ω) (site : FilingSettings) (args : FilingArgs) :
    Filing (Except FilingError ApprovalRequest) :=
  if !cfg.enabled then return .error .disabled
  else do
    match ← checkPendingCap site args.kind args.actor with
    | .error e => return .error e
    | .ok () =>
        if args.requireKnownKind && (cfg.getKind args.kind).isNone then
          return .error (.unknownKind (unknownMessage site args.kind))
        else fileRequest cfg site args

/-! ## Calls -/

/-- A call on a request there is, or the filing of a new one. -/
def deskScript (cfg : Settings ω) (site : FilingSettings) :
    Job ⊕ FilingArgs → Filing (Returned ⊕ Except FilingError ApprovalRequest)
  | .inl job => do return .inl (← (job.script cfg).embed FilingStatement FilingAnswer)
  | .inr args => do return .inr (← requestApproval cfg site args)

abbrev Desk (ω : Type) := Session (Statement ⊕ FilingStatement) (Sum.elim Answer FilingAnswer) (Store ω)
  (Job ⊕ FilingArgs) (Returned ⊕ Except FilingError ApprovalRequest)

/-- The run of some calls and filings. -/
def runDesk (cfg : Settings ω) (site : FilingSettings) (s : Store ω)
    (moves : List (Move (Job ⊕ FilingArgs))) : Desk ω :=
  Session.run (both (exec cfg) execFiling) (deskScript cfg site) { store := s } moves

end CwStation.Approvals
