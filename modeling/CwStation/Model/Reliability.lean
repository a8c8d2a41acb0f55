import CwStation.Model.Tasks

/-! # Retries: `apps/tasks/reliability.py` and `signals.py`

Each function is a thread whose statements are the queries of the source, in their order. -/

namespace CwStation.Tasks

open Threads

abbrev Thread := Prog World

/-- `timezone.now()` in a process whose clock is ahead of that of the database by `skew`. -/
def timezoneNow (skew : Time) : Thread Time := Prog.read fun w => w.clock + skew

/-! ## Policies -/

/-- What is read of a `RetryPolicy` but the delays; `retryOn` has the paths of the classes. -/
structure RetryPolicy where
  maxAttempts : Option ℕ+ := none
  retryOn : List Str := ["builtins.Exception".toList]
  retryLost : Bool := true

def defaultPolicy : RetryPolicy := {}

def implicitPinnedPolicy : RetryPolicy := { retryLost := false }

/-- The settings, and what importing a path gives. -/
structure Settings where
  /-- The policy registered for a task path, if any. -/
  policies : Str → Option RetryPolicy := fun _ => none
  /-- The path of a task can be imported. -/
  importable : Str → Bool := fun _ => true
  /-- The class an exception path names; `none` if the import fails, `some none` if it is
  no class. -/
  resolve : Str → Option (Option Str) := fun path => some (some path)
  isSubclass : Str → Str → Bool := fun cls base => cls = base || base = "builtins.Exception".toList
  defaultMaxAttempts : ℤ := 1
  lostAfterSeconds : ℤ := 90
  orphanSeconds : ℤ := 86400

def RetryPolicy.attempts (cfg : Settings) (policy : RetryPolicy) : ℤ :=
  match policy.maxAttempts with
  | some n => (n : ℕ)
  | none => cfg.defaultMaxAttempts

/-- `policy_for`. -/
def policyFor (cfg : Settings) (taskPath : Str) : RetryPolicy :=
  (cfg.policies taskPath).getD defaultPolicy

/-! ## The decision -/

/-- `_classify`. -/
def classify (row : TaskRow) (cause : Cause) : Cause :=
  if row.exceptionClassPath = workerLostPath then .lost
  else if row.exceptionClassPath ∈ interruptedPaths then .interrupted
  else cause

/-- `_matches`. -/
def matchesOn (cfg : Settings) (exceptionClassPath : Str) (retryOn : List Str) : Bool :=
  match cfg.resolve exceptionClassPath with
  | none => retryOn.any fun cls =>
      cls = "builtins.Exception".toList || cls = "builtins.BaseException".toList
  | some none => false
  | some (some cls) => retryOn.any fun base => cfg.isSubclass cls base

/-- What remains of a `_Decision` without the delay. -/
structure Decision where
  cause : Cause
  info : AttemptInfo
  budget : ℤ

/-- The budget of a chain: the pinned one, else that of the policy. -/
def budgetOf (cfg : Settings) (taskPath : Str) (maxAttempts : Option ℕ) : ℤ :=
  match maxAttempts with
  | some n => n
  | none => (policyFor cfg taskPath).attempts cfg

/-- `_decide` behind its reading of the attempt row. -/
def judge (cfg : Settings) (row : TaskRow) (cause : Cause) (info : AttemptInfo) : Option Decision :=
  let cause := classify row cause
  let policy := match cfg.policies row.spec.taskPath with
    | some policy => policy
    | none => if info.maxAttempts.isSome then implicitPinnedPolicy else defaultPolicy
  let budget := budgetOf cfg row.spec.taskPath info.maxAttempts
  if budget ≤ info.attempt then none
  else if cause = .lost ∨ cause = .interrupted then
    if policy.retryLost then some ⟨cause, info, budget⟩ else none
  else if matchesOn cfg row.exceptionClassPath policy.retryOn then some ⟨cause, info, budget⟩
  else none

/-- `_decide`. -/
def decideRetry (cfg : Settings) (row : TaskRow) (cause : Cause) : Thread (Option Decision) :=
  if row.status ≠ .failed then pure none
  else if row.exceptionClassPath ∈ bookkeepingPaths then pure none
  else do
    let info ← Prog.read fun w => w.attemptInfo row.id
    return judge cfg row cause info

/-! ## Retrying -/

/-- The fresh copy of a row. -/
def retryTask (row : TaskRow) (new : ResultId) (now : Time) : TaskRow where
  id := new
  spec := row.spec
  enqueuedAt := now
  retryOf := some row.id

/-- Its attempt row. -/
def retryAttempt (row : TaskRow) (decision : Decision) (new : ResultId) (now : Time) :
    TaskAttempt where
  resultId := new
  rootId := decision.info.rootId
  parentId := some row.id
  attempt := decision.info.attempt + 1
  cause := decision.cause
  maxAttempts := decision.info.maxAttempts
  createdAt := now

/-- The transaction of `maybe_retry`: the enqueue and the attempt row. -/
def retryRow (row : TaskRow) (decision : Decision) (new : ResultId) (skew : Time) (w : World) :
    Option World := do
  let w ← w.insertTask (retryTask row new (w.clock + skew))
  w.insertAttempt (retryAttempt row decision new (w.clock + skew))

/-- `maybe_retry`; `fresh` gives the id of the new row. -/
def maybeRetry (cfg : Settings) (fresh : ResultId → ResultId) (skew : Time) (resultId : ResultId)
    (cause : Cause) : Thread (Option ResultId) := do
  match ← Prog.read fun w => w.task resultId with
  | none => pure none
  | some row =>
      match ← decideRetry cfg row cause with
      | none => pure none
      | some decision =>
          -- a failing import raises before anything is written
          if cfg.importable row.spec.taskPath then
            let inserted ← Prog.stmt (World.atomic (retryRow row decision (fresh row.id) skew))
            pure (if inserted then some (fresh row.id) else none)
          else pure none

/-! ## Late completions -/

/-- `LateCompletion`. -/
structure LateCompletion where
  parentId : ResultId
  retryId : ResultId
  status : Status
  retryCancelled : Bool

/-- The filter `reaped_child`. -/
def reapedChild (parentId : ResultId) (a : TaskAttempt) : Bool :=
  a.parentId = some parentId && a.parentCompletedAt.isNone && a.cause = .lost

def markCompleted (parentId : ResultId) (status : Status) (completedAt : Time) (w : World) :
    Bool × World :=
  (w.attempts.any (reapedChild parentId),
    { w with attempts := w.attempts.map fun a =>
        if reapedChild parentId a then
          { a with parentCompletedAt := some completedAt, parentStatus := some status }
        else a })

def supersede (now : Time) (t : TaskRow) : TaskRow :=
  { t with status := .failed, finishedAt := some now, exceptionClassPath := retrySupersededPath }

def flagCancelled (parentId : ResultId) (w : World) : World :=
  { w with attempts := w.attempts.map fun a =>
      if a.parentId = some parentId then { a with retryCancelled := true } else a }

/-- `_mark_superseded`. -/
def markSuperseded (parentId : ResultId) (status : Status) (completedAt now : Time) :
    Thread (Option LateCompletion) := do
  match ← Prog.read fun w => w.attempts.find? (reapedChild parentId) with
  | none => pure none
  | some child =>
      if ← Prog.stmt (markCompleted parentId status completedAt) then
        let cancelled ← Prog.stmt (World.updateTask child.resultId .ready (supersede now))
        if cancelled then Prog.write (flagCancelled parentId)
        pure (some ⟨parentId, child.resultId, status, cancelled⟩)
      else pure none

/-- `record_late_completion`. -/
def recordLateCompletion (skew : Time) (resultId : ResultId) : Thread (Option LateCompletion) := do
  let now ← timezoneNow skew
  match ← Prog.read fun w => w.task resultId with
  | none => pure none
  | some row =>
      if row.status = .ready ∨ row.status = .running then pure none
      else markSuperseded resultId row.status (row.finishedAt.getD now) now

/-- `LATE_COMPLETION_WINDOW`. -/
def lateCompletionWindow : Time := seconds 86400

/-- `REPAIR_BATCH`. -/
def repairBatch : ℕ := 100

/-- `detect_late_completions`. -/
def detectLateCompletions (skew : Time) : Thread (List LateCompletion) := do
  let now ← timezoneNow skew
  let candidates ← Prog.read fun w =>
    ((w.attempts.filter fun a => a.cause = .lost && a.parentCompletedAt.isNone &&
      now - lateCompletionWindow ≤ a.createdAt).filterMap TaskAttempt.parentId).take repairBatch
  if candidates = [] then pure []
  else do
    let rows ← Prog.read fun w => w.tasks.filter fun t =>
      t.id ∈ candidates && (t.status = .successful || t.status = .failed)
    rows |> Prog.collect fun t =>
      if t.lost then pure none
      else markSuperseded t.id t.status (t.finishedAt.getD now) now

/-! ## The repair sweep -/

/-- `REPAIR_WINDOW`. -/
def repairWindow : Time := seconds 3600

/-- `REPAIR_GRACE`. -/
def repairGrace : Time := seconds 30

/-- The query `recent`. -/
def recentFailures (now : Time) (w : World) : List TaskRow :=
  w.tasks.filter fun t =>
    t.status = .failed &&
    t.finishedAt.any (fun finished => now - repairWindow ≤ finished && finished ≤ now - repairGrace) &&
    !w.attempts.any (fun a => a.parentId = some t.id) &&
    t.exceptionClassPath ∉ bookkeepingPaths

/-- The query `candidates`. -/
def repairCandidates (now : Time) (retryablePaths : List Str) (w : World) : List ResultId :=
  let pinned := (w.attempts.filter fun a => a.maxAttempts.any (1 < ·)).map TaskAttempt.resultId
  let rows := (recentFailures now w).filter fun t =>
    t.spec.taskPath ∈ retryablePaths || t.id ∈ pinned
  ((rows.mergeSort fun t u => t.finishedAt.getD 0 ≤ u.finishedAt.getD 0).map TaskRow.id).take
    repairBatch

/-- `repair_missed_retries`; `faults` says where `maybe_retry` raises for a row. -/
def repairMissedRetries (cfg : Settings) (fresh : ResultId → ResultId)
    (faults : ResultId → Option ℕ) (skew : Time) : Thread (List ResultId) := do
  let now ← timezoneNow skew
  let retryablePaths ← Prog.read fun w => ((recentFailures now w).map fun t => t.spec.taskPath).filter
    fun path => 1 < (policyFor cfg path).attempts cfg
  let candidates ← Prog.read (repairCandidates now retryablePaths)
  candidates |> Prog.collect fun id => do
    let retried ← (maybeRetry cfg fresh skew id .failed).upTo (faults id)
    pure retried.join

/-! ## The receiver of `task_finished` -/

/-- How a task ends. `WorkerLost` is never raised. -/
inductive Outcome
  | successful
  | failed (path : Str) (raised : path ≠ workerLostPath)

def Outcome.status : Outcome → Status
  | .successful => .successful
  | .failed _ _ => .failed

def Outcome.path : Outcome → Str
  | .successful => []
  | .failed path _ => path

/-- `retry_failed_task` for the database worker; the faults say where its two halves raise. -/
def retryFailedTask (cfg : Settings) (fresh : ResultId → ResultId) (lateFault retryFault : Option ℕ)
    (skew : Time) (resultId : ResultId) (status : Status) : Thread Unit := do
  let late ← (recordLateCompletion skew resultId).upTo lateFault
  if late.join.isNone && status = .failed then
    let _ ← (maybeRetry cfg fresh skew resultId .failed).upTo retryFault

end CwStation.Tasks
