import CwStation.Model.Tasks

/-! # Next-run arithmetic: `apps/scheduler/schedules.py`

A datetime is the instant it stands for. Which instant an addition gives depends on the zone that
the datetime carries: rows come from the database in UTC, a form or a code spec may bring another
zone. `total_seconds()` is taken to be exact. -/

namespace CwStation.Scheduler

open Tasks (Time seconds)

/-- What a computation raises: a `ScheduleConfigError`, or anything else. -/
inductive Failure
  | config
  | uncaught
  deriving DecidableEq

/-- `ScheduledJob.Type`, and what else a row may hold. -/
inductive ScheduleType
  | once
  | interval
  | cron
  | unknown (name : Str)
  deriving DecidableEq

inductive CalendarUnit
  | months
  | years
  deriving DecidableEq

/-- A `timedelta` or a `relativedelta`. -/
inductive IntervalDelta
  | fixed (delta : Time)
  | calendar (unit : CalendarUnit) (count : ℕ)
  deriving DecidableEq

/-- The fields that say when a job fires: a `ScheduleLike`. -/
structure Cadence where
  scheduleType : ScheduleType
  intervalSpec : Str := []
  anchorAt : Option Time := none
  cronExpression : Str := []
  runAt : Option Time := none
  timezone : Str := []
  deriving DecidableEq

/-- The additions to a datetime of one zone; `none` is out of range. -/
structure Arithmetic where
  add : Time → Time → Option Time
  addCalendar : CalendarUnit → ℕ → Time → Option Time

/-- The libraries: Unicode, the tz database by lower-case names, `relativedelta` in UTC and in
other zones, and `croniter(expr, after in zone).get_next()`. -/
structure Libraries where
  unicode : Unicode
  tzCanonical : Str → Option Str
  currentTimezone : Str
  addCalendar : CalendarUnit → ℕ → Time → Option Time
  zone : Str → Arithmetic
  cronNext : Str → Str → Time → Except Failure Time

/-- `datetime.min` and `datetime.max`. -/
def minTime : Time := -62135596800000000

def maxTime : Time := 253402300799999999

/-- `timedelta.max`. -/
def maxDelta : Time := 86399999999999999999

def inRange (t : Time) : Option Time := if minTime ≤ t ∧ t ≤ maxTime then some t else none

def Libraries.utc (lib : Libraries) : Arithmetic where
  add t delta := inRange (t + delta)
  addCalendar := lib.addCalendar

/-! ## Intervals -/

/-- The letters of `_INTERVAL_RE`, which ignores case: a long s passes it too. -/
inductive IntervalUnit
  | fixed (length : Time)
  | calendar (unit : CalendarUnit)
  | longS

/-- The unit at the head of a text, and the rest. -/
def intervalUnit : Str → Option (IntervalUnit × Str)
  | c :: rest =>
      if c = 'm' ∨ c = 'M' then
        match rest with
        | 'o' :: rest | 'O' :: rest => some (.calendar .months, rest)
        | _ => some (.fixed (seconds 60), rest)
      else if c = 's' ∨ c = 'S' then some (.fixed (seconds 1), rest)
      else if c = 'h' ∨ c = 'H' then some (.fixed (seconds 3600), rest)
      else if c = 'd' ∨ c = 'D' then some (.fixed (seconds 86400), rest)
      else if c = 'w' ∨ c = 'W' then some (.fixed (seconds 604800), rest)
      else if c = 'y' ∨ c = 'Y' then some (.calendar .years, rest)
      else if c = 'ſ' then some (.longS, rest)
      else none
  | [] => none

/-- `parse_interval`. -/
def parseInterval (lib : Libraries) (spec : Str) : Except Failure IntervalDelta :=
  let isDecimal (c : Char) : Bool := (lib.unicode.decimal c).isSome
  let digits := (lstrip spec).takeWhile isDecimal
  match intervalUnit (lstrip ((lstrip spec).dropWhile isDecimal)) with
  | none => .error .config
  | some (unit, rest) =>
      if digits = [] ∨ lstrip rest ≠ [] then .error .config
      else if digits.length > maxStrDigits then .error .uncaught
      else match intDigits lib.unicode false 0 digits with
        | none => .error .config
        | some count =>
            if count = 0 then .error .config
            else match unit with
              | .fixed length =>
                  if length * count ≤ maxDelta then .ok (.fixed (length * count))
                  else .error .uncaught
              | .calendar unit => .ok (.calendar unit count)
              | .longS => .error .uncaught

/-- The loop over a calendar interval. -/
def walk (add : Time → Option Time) (after : Time) : ℕ → Time → Except Failure Time
  | 0, next => .ok next
  | n + 1, next =>
      if after < next then .ok next
      else match add next with
        | some next => walk add after n next
        | none => .error .uncaught

/-- The bound of the loops. -/
def maxSteps : ℕ := 10000

/-- `_step_interval`. -/
def stepInterval (lib : Libraries) (arith : Arithmetic) (anchor : Time) (spec : Str) (after : Time) :
    Except Failure Time := do
  match ← parseInterval lib spec with
  | .fixed delta =>
      if after < anchor then return anchor
      else
        let steps := (after - anchor) / delta + 1
        match arith.add anchor (steps * delta) with
        | some next => return next
        | none => throw .uncaught
  | .calendar unit count => walk (arith.addCalendar unit count) after maxSteps anchor

/-! ## The next run -/

/-- `canonical_timezone`. -/
def canonicalTimezone (lib : Libraries) (name : Str) : Option Str :=
  if name = [] then none else lib.tzCanonical (lib.unicode.lower (strip name))

/-- `schedule_tz`. -/
def scheduleTz (lib : Libraries) (timezone : Str) : Except Failure Str :=
  if timezone = [] then .ok lib.currentTimezone
  else match canonicalTimezone lib timezone with
    | some name => .ok name
    | none => .error .config

/-- `next_run`, for a schedule whose anchor carries a zone of this arithmetic. -/
def nextRun (lib : Libraries) (arith : Arithmetic) (c : Cadence) (after : Time) :
    Except Failure (Option Time) :=
  match c.scheduleType with
  | .once =>
      match c.runAt with
      | none => .error .config
      | some runAt => .ok (if after < runAt then some runAt else none)
  | .interval =>
      if c.intervalSpec = [] then .error .config
      else match c.anchorAt with
        | none => (stepInterval lib lib.utc after c.intervalSpec after).map some
        | some anchor => (stepInterval lib arith anchor c.intervalSpec after).map some
  | .cron =>
      if c.cronExpression = [] then .error .config
      else do
        let tz ← scheduleTz lib c.timezone
        return some (← lib.cronNext c.cronExpression tz after)
  | .unknown _ => .error .config

/-- The loops of `missed_periods`: how often one may step from the cursor without passing `now`. -/
def countSteps (step : Time → Except Failure Time) (now : Time) : ℕ → Time → Except Failure ℕ
  | 0, _ => .ok 0
  | n + 1, cursor => do
      let cursor ← step cursor
      if now < cursor then return 0
      return (← countSteps step now n cursor) + 1

/-- `missed_periods` of a row. -/
def missedPeriods (lib : Libraries) (c : Cadence) (scheduledFor now : Time) : Except Failure ℕ :=
  if now ≤ scheduledFor then .ok 0
  else if c.scheduleType = .interval ∧ c.intervalSpec ≠ [] then do
    match ← parseInterval lib c.intervalSpec with
    | .fixed delta => return ((now - scheduledFor) / delta).toNat
    | .calendar unit count =>
        let step (t : Time) : Except Failure Time :=
          match lib.addCalendar unit count t with
          | some t => .ok t
          | none => .error .uncaught
        countSteps step now maxSteps scheduledFor
  else if c.scheduleType = .cron ∧ c.cronExpression ≠ [] then do
    let tz ← scheduleTz lib c.timezone
    countSteps (lib.cronNext c.cronExpression tz) now maxSteps scheduledFor
  else .ok 0

end CwStation.Scheduler
