import CwStation.Library.Scripts
import CwStation.Model.Schedules

/-! # Scheduled jobs: `apps/scheduler/services.py`, `models.py`, `forms.py` and `views.py`

The rows of the scheduler, and the scripts that read and write them: the tick, Run-now, the
reconcile pass and the edit form. The queue of tasks is the `world`. -/

namespace CwStation.Scheduler

open Tasks (Time seconds ResultId)
open Scripts

/-! ## Rows -/

/-- `ScheduledJob.CatchUp`. -/
inductive CatchUp
  | runOnce
  | skip
  deriving DecidableEq

/-- `ScheduledJob.Source`. -/
inductive Source
  | code
  | ui
  deriving DecidableEq

/-- `ScheduledJobRun.Status`. -/
inductive RunStatus
  | queued
  | skipped
  | success
  | failed
  deriving DecidableEq

/-- `ScheduledJob.last_status`: blank, that of a run, or `invalid`. -/
inductive LastStatus
  | blank
  | run (status : RunStatus)
  | invalid
  deriving DecidableEq

/-- A `ScheduledJob`. -/
structure ScheduledJob where
  pk : ℕ
  name : Str
  description : Str := []
  taskPath : Str
  kwargs : Str := []
  queueName : Str := "default".toList
  cadence : Cadence
  enabled : Bool := true
  allowOverlap : Bool := false
  catchUp : CatchUp := .runOnce
  maxRetries : ℕ := 0
  source : Source := .ui
  scheduleOverridden : Bool := false
  autoRetired : Bool := false
  nextRunAt : Option Time := none
  lastEnqueuedAt : Option Time := none
  lastStatus : LastStatus := .blank
  totalRuns : ℕ := 0
  deriving DecidableEq

/-- A `ScheduledJobRun`; the task result of a run that was not enqueued is blank. -/
structure ScheduledJobRun where
  pk : ℕ
  job : ℕ
  status : RunStatus
  scheduledFor : Time
  createdAt : Time
  taskResultId : Option ResultId := none
  message : Str := []
  deriving DecidableEq

/-- The status of the chain of a run: `READY`, `RUNNING`, `RETRYING`, `FAILED` or `SUCCESSFUL`. -/
inductive EngineStatus
  | ready
  | running
  | retrying
  | failed
  | successful
  deriving DecidableEq

/-- `_UNFINISHED`. -/
def EngineStatus.unfinished : EngineStatus → Bool
  | .ready | .running | .retrying => true
  | .failed | .successful => false

/-- What enqueueing raises: an error of the task path, or another one. -/
inductive EnqueueError
  | unresolvable (text : Str)
  | other (text : Str)
  deriving DecidableEq

/-- The settings, the libraries and the queue: the enqueue with its pinned budget, the status that
`_engine_result` reads, with the message `reconcile_run_outcomes` makes of it, and what the workers
do, step by step. -/
structure Engine (ω : Type) where
  lib : Libraries
  staleRunSeconds : ℤ := 86400
  enqueue : ScheduledJob → ω → Except EnqueueError ResultId × ω
  status : ResultId → ω → Option EngineStatus
  message : ResultId → ω → Str := fun _ _ => []
  work : ℕ → ω → ω := fun _ world => world

/-- The clock, the jobs, their runs in the order of their creation, and the queue. -/
structure Store (ω : Type) where
  clock : Time
  jobs : List ScheduledJob
  runs : List ScheduledJobRun := []
  world : ω

/-! ## Statements -/

/-- A `claim` is the conditional update of a tick: it has the copy of the row, with the cursor it
has observed, the moment of the tick and the new cursor. A `save` has the row as it was loaded and
as it is written, and the moment from which a new cursor was computed. -/
inductive Statement
  | now
  | due (now : Time)
  | load (pk : ℕ)
  | claim (job : ScheduledJob) (now : Time) (next : Option Time)
  | disable (pk : ℕ)
  | lastQueued (pk : ℕ)
  | engineStatus (id : ResultId)
  | enqueue (job : ScheduledJob)
  | record (pk : ℕ) (status : RunStatus) (scheduledFor : Time) (id : Option ResultId) (message : Str)
  | book (pk : ℕ) (now : Time)
  | markStatus (pk : ℕ) (status : RunStatus)
  | save (loaded copy : ScheduledJob) (seeded : Option Time)
  | queued (limit : ℕ)
  | saveRun (pk : ℕ) (status : RunStatus) (message : Str)
  | isLatest (run : ScheduledJobRun)
  | message (id : ResultId)
  | work (step : ℕ)
  | elapse (d : ℕ)

abbrev Answer : Statement → Type
  | .now => Time
  | .due _ => List ScheduledJob
  | .load _ => Option ScheduledJob
  | .claim _ _ _ => Bool
  | .lastQueued _ => Option ScheduledJobRun
  | .engineStatus _ => Option EngineStatus
  | .enqueue _ => Except EnqueueError ResultId
  | .queued _ => List ScheduledJobRun
  | .isLatest _ => Bool
  | .message _ => Str
  | .disable _ | .record _ _ _ _ _ | .book _ _ | .markStatus _ _ | .save _ _ _ => Unit
  | .saveRun _ _ _ | .work _ | .elapse _ => Unit

abbrev Call := Script Statement Answer

abbrev perform (op : Statement) : Call (Answer op) := Script.perform op

/-- The later of two runs. -/
def later : Option ScheduledJobRun → ScheduledJobRun → Option ScheduledJobRun
  | none, run => some run
  | some last, run => if last.createdAt ≤ run.createdAt then some run else some last

namespace Store

variable {ω : Type}

def job (s : Store ω) (pk : ℕ) : Option ScheduledJob := Table.get ScheduledJob.pk s.jobs pk

def alter (s : Store ω) (pk : ℕ) (f : ScheduledJob → ScheduledJob) : Store ω :=
  { s with jobs := Table.alter ScheduledJob.pk pk f s.jobs }

/-- The query of `run_due_jobs`. -/
def due (now : Time) (s : Store ω) : List ScheduledJob :=
  s.jobs.filter fun job => job.enabled && job.nextRunAt.any (· ≤ now)

/-- The runs of a job that `_previous_run_active` looks at. -/
def queuedRuns (pk : ℕ) (s : Store ω) : List ScheduledJobRun :=
  s.runs.filter fun run => run.job = pk && run.status = .queued && run.taskResultId.isSome

end Store

/-- What a statement answers and does. -/
def exec {ω : Type} (engine : Engine ω) : (op : Statement) → Store ω → Answer op × Store ω
  | .now, s => (s.clock, s)
  | .due now, s => (s.due now, s)
  | .load pk, s => (s.job pk, s)
  | .claim job _ next, s =>
      if (s.job job.pk).any fun row => row.nextRunAt = job.nextRunAt then
        (true, s.alter job.pk fun row => { row with nextRunAt := next })
      else (false, s)
  | .disable pk, s =>
      ((), s.alter pk fun row => { row with enabled := false, lastStatus := .invalid })
  | .lastQueued pk, s => ((s.queuedRuns pk).foldl later none, s)
  | .engineStatus id, s => (engine.status id s.world, s)
  | .enqueue job, s =>
      let (result, world) := engine.enqueue job s.world
      (result, { s with world })
  | .record pk status scheduledFor id message, s =>
      let run : ScheduledJobRun := {
        pk := s.runs.length, job := pk, status, scheduledFor, createdAt := s.clock
        taskResultId := id, message }
      ((), { s with runs := s.runs ++ [run] })
  | .book pk now, s =>
      ((), s.alter pk fun row => { row with
        lastEnqueuedAt := some now
        lastStatus := .run .queued
        totalRuns := row.totalRuns + 1 })
  | .markStatus pk status, s => ((), s.alter pk fun row => { row with lastStatus := .run status })
  | .save _ copy _, s => ((), s.alter copy.pk fun _ => copy)
  | .queued limit, s =>
      let queued := s.runs.filter fun run => run.status = .queued && run.taskResultId.isSome
      ((queued.mergeSort fun a b => b.createdAt ≤ a.createdAt).take limit, s)
  | .saveRun pk status message, s =>
      let promote (run : ScheduledJobRun) : ScheduledJobRun := { run with status, message }
      ((), { s with runs := Table.alter ScheduledJobRun.pk pk promote s.runs })
  | .isLatest run, s =>
      (!s.runs.any fun other => other.job = run.job && run.createdAt < other.createdAt, s)
  | .message id, s => (engine.message id s.world, s)
  | .work step, s => ((), { s with world := engine.work step s.world })
  | .elapse d, s => ((), { s with clock := s.clock + d })

/-! ## The tick -/

/-- `TickResult`. -/
structure TickResult where
  enqueued : ℕ := 0
  skipped : ℕ := 0
  retired : ℕ := 0
  errors : ℕ := 0
  deriving DecidableEq

def TickResult.add (a b : TickResult) : TickResult where
  enqueued := a.enqueued + b.enqueued
  skipped := a.skipped + b.skipped
  retired := a.retired + b.retired
  errors := a.errors + b.errors

section services

variable {ω : Type}

/-- `_previous_run_active`. -/
def previousRunActive (engine : Engine ω) (job : ScheduledJob) (now : Time) : Call Bool := do
  match ← perform (.lastQueued job.pk) with
  | none => return false
  | some last =>
      match last.taskResultId with
      | none => return false
      | some id =>
          if last.createdAt < now - seconds engine.staleRunSeconds then return false
          let status ← perform (.engineStatus id)
          return status.any EngineStatus.unfinished

/-- `enqueue_and_record`; what raises is its enqueue. -/
def enqueueAndRecord (job : ScheduledJob) (scheduledFor now : Time) :
    Call (Except EnqueueError ResultId) := do
  match ← perform (.enqueue job) with
  | .error e => return .error e
  | .ok id =>
      perform (.record job.pk .queued scheduledFor (some id) [])
      perform (.book job.pk now)
      return .ok id

/-- The fire of `_process_job_body`. -/
def fire (job : ScheduledJob) (observed now : Time) : Call TickResult := do
  match ← enqueueAndRecord job observed now with
  | .ok _ => return { enqueued := 1 }
  | .error (.unresolvable text) =>
      perform (.record job.pk .failed observed none (("task_path unresolvable: ".toList ++ text).take 255))
      perform (.disable job.pk)
      return { errors := 1 }
  | .error (.other text) =>
      perform (.record job.pk .failed observed none (("enqueue failed: ".toList ++ text).take 255))
      perform (.markStatus job.pk .failed)
      return { errors := 1 }

/-- What `_process_job_body` does behind its overlap guard: the catch-up policy and the fire. What
counting the missed periods raises is an error of the tick. -/
def afterGuard (engine : Engine ω) (job : ScheduledJob) (observed now : Time) (active : Bool) :
    Call TickResult := do
  if active then
    perform (.record job.pk .skipped observed none "previous run still active".toList)
    return { skipped := 1 }
  let missed := if job.catchUp = .skip then missedPeriods engine.lib job.cadence observed now else .ok 0
  match missed with
  | .error _ => return { errors := 1 }
  | .ok 0 => fire job observed now
  | .ok (n + 1) =>
      perform (.record job.pk .skipped observed none
        ("missed ".toList ++ Nat.toDigits 10 (n + 1) ++ " run(s)".toList))
      return { skipped := 1 }

/-- What `_process_job_body` does behind its claim. -/
def afterClaim (engine : Engine ω) (job : ScheduledJob) (observed now : Time) :
    Call TickResult := do
  let active ← if job.allowOverlap then pure false else previousRunActive engine job now
  afterGuard engine job observed now active

/-- `_process_job_body`; `run_due_jobs` counts what it raises as an error. -/
def processJobBody (engine : Engine ω) (job : ScheduledJob) (now : Time) : Call TickResult :=
  match job.nextRunAt with
  | none => return {}
  | some observed =>
      match nextRun engine.lib engine.lib.utc job.cadence now with
      | .error .config => do
          perform (.disable job.pk)
          return { errors := 1 }
      | .error .uncaught => return { errors := 1 }
      | .ok next => do
          if !(← perform (.claim job now next)) then return {}
          let result ← afterClaim engine job observed now
          return result.add { retired := if next.isNone then 1 else 0 }

/-- The loop of `run_due_jobs`. -/
def processJobs (engine : Engine ω) (now : Time) : List ScheduledJob → Call TickResult
  | [] => return {}
  | job :: jobs => do
      let result ← processJobBody engine job now
      let rest ← processJobs engine now jobs
      return result.add rest

/-- A tick at a moment. -/
def processDue (engine : Engine ω) (now : Time) : Call TickResult := do
  let due ← perform (.due now)
  processJobs engine now due

/-- `run_due_jobs`, in a process whose code jobs have been synced. -/
def runDueJobs (engine : Engine ω) (now : Option Time) : Call TickResult :=
  match now with
  | some now => processDue engine now
  | none => do
      let now ← perform .now
      processDue engine now

/-! ## The form -/

/-- What `ScheduledJob.clean` raises: a `ValidationError` that names its field, or anything else. -/
inductive CleanError
  | validation (field : Str)
  | uncaught
  deriving DecidableEq

/-- The field that a type of schedule needs, and whether it is given. -/
def Cadence.required (c : Cadence) : Option (Str × Bool) :=
  match c.scheduleType with
  | .once => some ("run_at".toList, c.runAt.isSome)
  | .interval => some ("interval_spec".toList, c.intervalSpec ≠ [])
  | .cron => some ("cron_expression".toList, c.cronExpression ≠ [])
  | .unknown _ => none

/-- `ScheduledJob.clean`, with the cadence as it leaves it; `queues` are those of the backend of the
task. -/
def cleanJob (lib : Libraries) (arith : Arithmetic) (queues : List Str) (queueName : Str)
    (c : Cadence) (now : Time) : Except CleanError Cadence :=
  match c.required with
  | none => .error (.validation "schedule_type".toList)
  | some (field, given) =>
      if !given then .error (.validation field)
      else if c.timezone ≠ [] ∧ canonicalTimezone lib c.timezone = none then
        .error (.validation "timezone".toList)
      else
        let c := { c with timezone := (canonicalTimezone lib c.timezone).getD c.timezone }
        match nextRun lib arith c now with
        | .error .config => .error (.validation field)
        | .error .uncaught => .error .uncaught
        | .ok _ =>
            if queues ≠ [] ∧ queueName ∉ queues then .error (.validation "queue_name".toList)
            else .ok c

/-- What an operator has filled in, as the form has cleaned it; the fields that define the task are
locked. Without a cadence, the fields of the cadence come back as they were loaded. -/
structure Edit where
  cadence : Option Cadence := none
  enabled : Bool
  allowOverlap : Bool
  catchUp : CatchUp
  maxRetries : ℕ

def Edit.apply (edit : Edit) (job : ScheduledJob) : ScheduledJob :=
  { job with
    cadence := edit.cadence.getD job.cadence
    enabled := edit.enabled
    allowOverlap := edit.allowOverlap
    catchUp := edit.catchUp
    maxRetries := edit.maxRetries }

/-- What `ScheduledJob.save` does with a row whose timezone it has normalized. -/
def storeJob (lib : Libraries) (loaded job : ScheduledJob) : Call (Except Failure ScheduledJob) := do
  let old ← perform (.load job.pk)
  let cadenceChanged := old.any fun old => old.cadence ≠ job.cadence
  if job.enabled && (job.nextRunAt.isNone || cadenceChanged) then
    let now ← perform .now
    match nextRun lib (lib.zone lib.currentTimezone) job.cadence now with
    | .error .uncaught => return .error .uncaught
    | .error .config =>
        perform (.save loaded { job with nextRunAt := none } (some now))
        return .ok { job with nextRunAt := none }
    | .ok next =>
        perform (.save loaded { job with nextRunAt := next } (some now))
        return .ok { job with nextRunAt := next }
  else
    perform (.save loaded job none)
    return .ok job

/-- The timezone as `ScheduledJob.save` leaves it. -/
def Cadence.normalized (lib : Libraries) (c : Cadence) : Cadence :=
  { c with timezone := (canonicalTimezone lib c.timezone).getD c.timezone }

/-- `ScheduledJob.save` of a whole row that was loaded and changed. -/
def saveJob (lib : Libraries) (loaded job : ScheduledJob) : Call (Except Failure ScheduledJob) :=
  storeJob lib loaded { job with cadence := job.cadence.normalized lib }

/-- `ScheduledJobForm.save` on the row that the form has loaded. -/
def saveForm (lib : Libraries) (edit : Edit) (loaded : ScheduledJob) :
    Call (Except Failure ScheduledJob) := do
  let job := edit.apply loaded
  if job.scheduleOverridden then saveJob lib loaded job
  else
    let previous ← perform (.load job.pk)
    let changed := previous.any fun previous => previous.cadence ≠ job.cadence
    saveJob lib loaded { job with scheduleOverridden := changed }

/-- An edit: the form loads the row, and saves what the operator has made of it. -/
def editJob (lib : Libraries) (pk : ℕ) (edit : Edit) : Call (Option (Except Failure ScheduledJob)) := do
  match ← perform (.load pk) with
  | none => return none
  | some loaded => return some (← saveForm lib edit loaded)

/-! ## Run-now -/

/-- `run_now`; `none` is a 404. -/
def runNow (pk : ℕ) : Call (Option (Except EnqueueError ResultId)) := do
  match ← perform (.load pk) with
  | none => return none
  | some job => do
      let scheduledFor ← perform .now
      let now ← perform .now
      return some (← enqueueAndRecord job scheduledFor now)

/-! ## Reconciling -/

/-- The terminal statuses that `reconcile_run_outcomes` writes. -/
def EngineStatus.terminal : EngineStatus → Option RunStatus
  | .successful => some .success
  | .failed => some .failed
  | .ready | .running | .retrying => none

/-- One round of `reconcile_run_outcomes`: whether it has promoted the run. -/
def reconcileRun (run : ScheduledJobRun) : Call Bool := do
  match run.taskResultId with
  | none => return false
  | some id =>
      match (← perform (.engineStatus id)).bind EngineStatus.terminal with
      | none => return false
      | some status => do
          let message ← perform (.message id)
          perform (.saveRun run.pk status message)
          if ← perform (.isLatest run) then perform (.markStatus run.job status)
          return true

/-- `reconcile_run_outcomes`. -/
def reconcileRunOutcomes (limit : ℕ) : Call ℕ := do
  let queued ← perform (.queued limit)
  let promoted ← Script.forEach reconcileRun queued
  return promoted.count true

/-! ## Sessions -/

/-- What takes turns: ticks, operators and the reconcile pass, and what goes on besides. -/
inductive Job
  | tick (now : Option Time)
  | edit (pk : ℕ) (filled : Edit)
  | runNow (pk : ℕ)
  | reconcile (limit : ℕ)
  | work (step : ℕ)
  | elapse (d : ℕ)

def Job.script (engine : Engine ω) : Job → Call Unit
  | .tick now => do
      let _ ← runDueJobs engine now
  | .edit pk filled => do
      let _ ← editJob engine.lib pk filled
  | .runNow pk => do
      let _ ← Scheduler.runNow pk
  | .reconcile limit => do
      let _ ← reconcileRunOutcomes limit
  | .work step => perform (.work step)
  | .elapse d => perform (.elapse d)

end services

end CwStation.Scheduler
