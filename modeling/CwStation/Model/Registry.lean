import CwStation.Library.Effects
import CwStation.Model.Scheduler

/-! # Jobs declared in code: `apps/scheduler/decorators.py` and `registry.py`

The sync of the declared specs into the rows. A sync runs at one moment of the clock, and what it
has written stays where it raises. -/

namespace CwStation.Scheduler

open Tasks (Time)

/-- A `ScheduleSpec`. -/
structure ScheduleSpec where
  taskPath : Str
  name : Str
  scheduleType : ScheduleType
  intervalSpec : Str := []
  anchor : Str := []
  cronExpression : Str := []
  runAt : Option Time := none
  timezone : Str := []
  queueName : Str := "default".toList
  kwargs : Str := []
  catchUp : CatchUp := .runOnce
  allowOverlap : Bool := false

/-- The row that `get_or_create` makes of a spec. -/
def ScheduleSpec.row (spec : ScheduleSpec) (pk : ℕ) : ScheduledJob where
  pk
  name := spec.name
  taskPath := spec.taskPath
  kwargs := spec.kwargs
  queueName := spec.queueName
  cadence := {
    scheduleType := spec.scheduleType
    intervalSpec := spec.intervalSpec
    cronExpression := spec.cronExpression
    runAt := spec.runAt
    timezone := spec.timezone }
  allowOverlap := spec.allowOverlap
  catchUp := spec.catchUp
  source := .code

/-- What `_resolve_anchor` takes from `datetime`: the year of an instant in a zone, a midnight in a
zone, and an ISO date with the arithmetic of the offset it carries, or of the zone. -/
structure Calendars where
  year : Str → Time → ℤ
  midnight : Str → ℤ → ℤ → ℤ → Option Time
  fromIsoFormat : Str → Option (Str → Time × Arithmetic)

/-- `_resolve_anchor`. -/
def resolveAnchor (lib : Libraries) (cal : Calendars) (now : Time) (anchor tz : Str) :
    Option (Time × Arithmetic) :=
  if anchor = [] then none
  else if anchor.length = 5 ∧ anchor[2]? = some '-' then
    match pyInt lib.unicode (anchor.take 2), pyInt lib.unicode (anchor.drop 3) with
    | .ok month, .ok day => (cal.midnight tz (cal.year tz now) month day).map fun t => (t, lib.zone tz)
    | _, _ => none
  else (cal.fromIsoFormat anchor).map fun date => date tz

/-! ## Fields -/

/-- The fields that the sync writes. -/
inductive Field
  | taskPath
  | kwargs
  | scheduleType
  | intervalSpec
  | cronExpression
  | runAt
  | timezone
  | anchorAt
  | enabled
  | autoRetired
  | nextRunAt
  deriving DecidableEq

/-- A field of a row, taken from another one. -/
def Field.write (job : ScheduledJob) (row : ScheduledJob) : Field → ScheduledJob
  | .taskPath => { row with taskPath := job.taskPath }
  | .kwargs => { row with kwargs := job.kwargs }
  | .scheduleType => { row with cadence.scheduleType := job.cadence.scheduleType }
  | .intervalSpec => { row with cadence.intervalSpec := job.cadence.intervalSpec }
  | .cronExpression => { row with cadence.cronExpression := job.cadence.cronExpression }
  | .runAt => { row with cadence.runAt := job.cadence.runAt }
  | .timezone => { row with cadence.timezone := job.cadence.timezone }
  | .anchorAt => { row with cadence.anchorAt := job.cadence.anchorAt }
  | .enabled => { row with enabled := job.enabled }
  | .autoRetired => { row with autoRetired := job.autoRetired }
  | .nextRunAt => { row with nextRunAt := job.nextRunAt }

/-- `_CADENCE_FIELDS`. -/
def cadenceFields : List Field := [.scheduleType, .intervalSpec, .cronExpression, .runAt, .timezone]

/-! ## The sync -/

section sync

variable {ω : Type}

/-- What syncs on the rows, and may raise. -/
abbrev Sync (ω : Type) := EStateM Failure (Store ω)

/-- A cursor that is computed; an invalid cadence has none. -/
def computeCursor (lib : Libraries) (arith : Arithmetic) (c : Cadence) : Sync ω (Option Time) := do
  let s ← get
  match nextRun lib arith c s.clock with
  | .error .uncaught => throw .uncaught
  | .error .config => return none
  | .ok next => return next

/-- `job.save(update_fields=fields)`, on a job that is loaded and changed. -/
def saveFields (lib : Libraries) (arith : Arithmetic) (job : ScheduledJob) (fields : List Field) :
    Sync ω Unit := do
  let s ← get
  let job := { job with cadence := job.cadence.normalized lib }
  let cadenceChanged := (s.job job.pk).any fun old => old.cadence ≠ job.cadence
  if job.enabled && (job.nextRunAt.isNone || cadenceChanged) then
    let next ← computeCursor lib arith job.cadence
    let job := { job with nextRunAt := next }
    set (s.alter job.pk fun row => (fields ++ [Field.nextRunAt]).foldl (Field.write job) row)
  else
    set (s.alter job.pk fun row => fields.foldl (Field.write job) row)

/-- A key that no row has. -/
def Store.freshPk (s : Store ω) : ℕ := (s.jobs.map ScheduledJob.pk).foldl max 0 + 1

/-- The `create` of `get_or_create`. -/
def createJob (lib : Libraries) (spec : ScheduleSpec) : Sync ω ScheduledJob := do
  let s ← get
  let job := spec.row s.freshPk
  let job := { job with cadence := job.cadence.normalized lib }
  let next ← computeCursor lib lib.utc job.cadence
  let job := { job with nextRunAt := next }
  set { s with jobs := s.jobs ++ [job] }
  return job

/-- What a spec changes of a row: the wiring of the task, and the cadence where no operator has
overridden it. -/
def followCode (spec : ScheduleSpec) (job : ScheduledJob) : ScheduledJob × List Field :=
  let updates := [.taskPath, .kwargs] ++ if job.scheduleOverridden then [] else cadenceFields
  let changed := updates.filter fun field => field.write (spec.row job.pk) job ≠ job
  (changed.foldl (Field.write (spec.row job.pk)) job, changed)

/-- The anchor of a spec on a row, with the arithmetic of the anchor that the row has then. -/
def followAnchor (lib : Libraries) (anchor : Option (Time × Arithmetic)) (job : ScheduledJob) :
    ScheduledJob × List Field × Arithmetic :=
  match anchor with
  | some (anchorAt, arith) =>
      if !job.scheduleOverridden && job.cadence.anchorAt ≠ some anchorAt then
        ({ job with cadence.anchorAt := some anchorAt }, [.anchorAt], arith)
      else (job, [], lib.utc)
  | none => (job, [], lib.utc)

/-- The end of a retirement, where the spec is back. -/
def unretire (job : ScheduledJob) : ScheduledJob × List Field :=
  if job.autoRetired then
    ({ job with enabled := true, autoRetired := false }, [.enabled, .autoRetired])
  else (job, [])

/-- What a sync makes of a row before it computes a cursor. -/
def refresh (lib : Libraries) (anchor : Option (Time × Arithmetic)) (spec : ScheduleSpec)
    (row : ScheduledJob) : ScheduledJob × List Field × Arithmetic :=
  let (job, wiring) := followCode spec row
  let (job, moved, arith) := followAnchor lib anchor job
  let (job, revived) := unretire job
  (job, wiring ++ moved ++ revived, arith)

/-- The round of a spec whose row exists. -/
def syncRow (lib : Libraries) (cal : Calendars) (spec : ScheduleSpec) (row : ScheduledJob) :
    Sync ω Unit := do
  let s ← get
  let tz ← MonadExcept.ofExcept (scheduleTz lib row.cadence.timezone)
  let (job, changed, arith) :=
    refresh lib (resolveAnchor lib cal s.clock spec.anchor tz) spec row
  let cadenceChanged := changed.any fun field => field ∈ cadenceFields || field = .anchorAt
  if job.enabled && (cadenceChanged || job.nextRunAt.isNone) then
    let next ← computeCursor lib arith job.cadence
    saveFields lib arith { job with nextRunAt := next } (changed ++ [.nextRunAt])
  else if changed ≠ [] then
    saveFields lib arith job changed

/-- The round of a spec without a row. -/
def syncNew (lib : Libraries) (cal : Calendars) (spec : ScheduleSpec) : Sync ω Unit := do
  let job ← createJob lib spec
  let s ← get
  let tz ← MonadExcept.ofExcept (scheduleTz lib job.cadence.timezone)
  let (job, arith) := match resolveAnchor lib cal s.clock spec.anchor tz with
    | some (anchorAt, arith) => ({ job with cadence.anchorAt := some anchorAt }, arith)
    | none => (job, lib.utc)
  let next ← computeCursor lib arith job.cadence
  saveFields lib arith { job with nextRunAt := next } [.anchorAt, .nextRunAt]

/-- The round of a spec: rows are found by their names alone. -/
def syncSpec (lib : Libraries) (cal : Calendars) (spec : ScheduleSpec) : Sync ω Unit := do
  let s ← get
  match Table.get ScheduledJob.name s.jobs spec.name with
  | none => syncNew lib cal spec
  | some row => syncRow lib cal spec row

def syncSpecs (lib : Libraries) (cal : Calendars) : List ScheduleSpec → Sync ω Unit
  | [] => return
  | spec :: specs => do
      syncSpec lib cal spec
      syncSpecs lib cal specs

/-- The names that are declared. -/
def liveNames (specs : List ScheduleSpec) : List Str := (specs.map ScheduleSpec.name).dedup

/-- The rows that no spec declares any more. -/
def Store.orphans (s : Store ω) (specs : List ScheduleSpec) : List ScheduledJob :=
  s.jobs.filter fun job => job.source = .code && job.enabled && job.name ∉ liveNames specs

/-- `_retirement_is_plausible`. -/
def retirementIsPlausible (orphans : List ScheduledJob) (specs : List ScheduleSpec) : Bool :=
  orphans.length * 2 ≤ (liveNames specs).length + orphans.length

def retireJobs (lib : Libraries) : List ScheduledJob → Sync ω Unit
  | [] => return
  | job :: jobs => do
      saveFields lib lib.utc { job with enabled := false, autoRetired := true, nextRunAt := none }
        [.enabled, .autoRetired, .nextRunAt]
      retireJobs lib jobs

/-- The retirement, with its safety valves. -/
def retire (lib : Libraries) (specs : List ScheduleSpec) : Sync ω Unit := do
  let s ← get
  if specs ≠ [] ∧ retirementIsPlausible (s.orphans specs) specs = true then
    retireJobs lib (s.orphans specs)

/-- `sync_code_jobs`. -/
def syncCodeJobs (lib : Libraries) (cal : Calendars) (specs : List ScheduleSpec) : Sync ω ℕ := do
  syncSpecs lib cal specs
  retire lib specs
  return specs.length

end sync

end CwStation.Scheduler
