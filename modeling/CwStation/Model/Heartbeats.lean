import CwStation.Library.Table
import CwStation.Model.Floats
import Mathlib.Data.List.Dedup
import Mathlib.Data.List.Sort

/-! # Heartbeats and daily summaries: `apps/heartbeat`

One beat a minute and monitor is recorded; a pruner folds beats past the retention into one
summary for each monitor and day, and deletes them. -/

namespace CwStation.Heartbeat

/-! ## Instants and days -/

/-- Microseconds since 1970 in UTC. -/
abbrev Instant := ℤ

/-- Days since 1970. -/
abbrev Day := ℤ

def second : ℤ := 1000000

def minute : ℤ := 60 * second

def dayLength : ℤ := 86400 * second

/-- The offset from UTC at an instant: `before`, and then each offset from the instant on at
which it begins. -/
def offsetFrom : ℤ → List (Instant × ℤ) → Instant → ℤ
  | before, [], _ => before
  | before, (start, after) :: changes, t =>
      if start ≤ t then offsetFrom after changes t else before

/-- The offset that `zoneinfo` gives a wall time with `fold=0`: the earlier one where the wall
time comes twice, and the one before where it is skipped. -/
def wallOffsetFrom : ℤ → List (Instant × ℤ) → ℤ → ℤ
  | before, [], _ => before
  | before, (start, after) :: changes, wall =>
      if start + max before after ≤ wall then wallOffsetFrom after changes wall else before

/-- A time zone. Midnights come one after the other. -/
structure Zone where
  first : ℤ
  changes : List (Instant × ℤ)
  midnights : ∀ d : Day, d * dayLength - wallOffsetFrom first changes (d * dayLength) ≤
    (d + 1) * dayLength - wallOffsetFrom first changes ((d + 1) * dayLength)

def Zone.utc : Zone where
  first := 0
  changes := []
  midnights d := by
    have hpos : (0 : ℤ) ≤ dayLength := by decide
    rw [wallOffsetFrom, wallOffsetFrom, sub_zero, sub_zero, add_mul, one_mul]
    exact le_add_of_nonneg_right hpos

namespace Zone

variable (z : Zone)

/-- The local date, as `timestamp__date` truncates. -/
def localDate (t : Instant) : Day := (t + offsetFrom z.first z.changes t) / dayLength

/-- The instant of a wall time. -/
def ofWall (wall : ℤ) : Instant := wall - wallOffsetFrom z.first z.changes wall

/-- The first instant of a date, as `make_aware` has it. -/
def midnight (d : Day) : Instant := z.ofWall (d * dayLength)

end Zone

/-- A datetime in UTC, or one that carries the current zone. -/
inductive Aware
  | utc (t : Instant)
  | zoned (wall : ℤ)
  deriving DecidableEq, Repr

namespace Aware

variable (z : Zone)

def instant : Aware → Instant
  | .utc t => t
  | .zoned wall => z.ofWall wall

/-- `a < b`; within one zone wall times are compared. -/
def lt : Aware → Aware → Bool
  | .zoned a, .zoned b => a < b
  | a, b => a.instant z < b.instant z

/-- `a - b`; within one zone it is the difference of the wall times. -/
def sub : Aware → Aware → ℤ
  | .zoned a, .zoned b => a - b
  | a, b => a.instant z - b.instant z

/-- `max(a, b)`. -/
def max (a b : Aware) : Aware := if lt z a b then b else a

/-- `min(a, b)`. -/
def min (a b : Aware) : Aware := if lt z b a then b else a

end Aware

/-! ## Tables -/

inductive Status
  | ok
  | fail
  deriving DecidableEq, Repr

/-- A `Heartbeat`. -/
structure Beat where
  pk : ℕ
  monitorKey : Str
  timestamp : Instant
  status : Status
  responseTimeMs : ℕ
  deriving DecidableEq, Repr

/-- A `MaintenanceWindow`. -/
structure Window where
  monitorKey : Str
  start : Instant
  stop : Instant
  excludeFromSla : Bool
  deriving DecidableEq, Repr

/-- A `HeartbeatDaily`. The columns are checked to be no less than zero. -/
structure Daily where
  monitorKey : Str
  date : Day
  okCount : ℤ := 0
  failCount : ℤ := 0
  maintenanceCount : ℤ := 0
  expectedCount : ℤ := 0
  avgResponseMs : ℤ := 0
  uptimePct : ℚ := 0
  deriving DecidableEq, Repr

/-- The column constraints of a `HeartbeatDaily`. -/
def Daily.isValid (row : Daily) : Bool :=
  0 ≤ row.okCount ∧ 0 ≤ row.failCount ∧ 0 ≤ row.maintenanceCount ∧ 0 ≤ row.expectedCount ∧
    0 ≤ row.avgResponseMs

/-- What the unique constraint is on. -/
def Daily.key (row : Daily) : Str × Day := (row.monitorKey, row.date)

structure Db where
  beats : List Beat
  daily : List Daily
  deriving DecidableEq

/-- The settings, and the tables that nothing here writes to. -/
structure Site where
  zone : Zone
  /-- `HEARTBEAT_RETENTION_DAYS`. -/
  retentionDays : ℤ
  /-- `HEARTBEAT_EXPECTED_INTERVAL`, in seconds. -/
  interval : ℤ
  windows : List Window
  /-- The `HeartbeatEpoch` rows: the start of each monitor. -/
  epochs : List (Str × Instant)
  interval_pos : 0 < interval

variable (site : Site)

/-! ## Excluded maintenance -/

/-- The loop of `get_excluded_ranges`: windows cut to the range, each merged into the last range
that it touches. -/
def mergeRanges (start stop : Aware) : Option (Aware × Aware) → List Window → List (Aware × Aware)
  | last, [] => last.toList
  | none, w :: ws =>
      mergeRanges start stop
        (some (.max site.zone (.utc w.start) start, .min site.zone (.utc w.stop) stop)) ws
  | some (s, e), w :: ws =>
      let s' := Aware.max site.zone (.utc w.start) start
      let e' := Aware.min site.zone (.utc w.stop) stop
      if Aware.lt site.zone e s' then (s, e) :: mergeRanges start stop (some (s', e')) ws
      else mergeRanges start stop (some (s, .max site.zone e e')) ws

/-- The windows that `get_excluded_ranges` selects. -/
def excludedWindows (start stop : Aware) (key : Str) : List Window :=
  (site.windows.filter fun w => w.monitorKey = key ∧ w.excludeFromSla ∧
    w.start < stop.instant site.zone ∧ start.instant site.zone < w.stop).insertionSort
      fun w w' => w.start ≤ w'.start

/-- `MaintenanceWindow.get_excluded_ranges`. -/
def excludedRanges (start stop : Aware) (key : Str) : List (Aware × Aware) :=
  mergeRanges site start stop none (excludedWindows site start stop key)

/-- `MaintenanceWindow.get_excluded_seconds`, in microseconds. -/
def excludedTime (start stop : Aware) (key : Str) : ℤ :=
  ((excludedRanges site start stop key).map fun (s, e) => Aware.sub site.zone e s).sum

/-! ## Expected beats -/

/-- `_day_bounds`. -/
def dayBounds (day : Day) : Aware × Aware := (.zoned (day * dayLength), .zoned ((day + 1) * dayLength))

/-- `expected_intervals_for_day`. -/
def expectedIntervalsForDay (now : Instant) (day : Day) (key : Str) (epochStart : Option Instant) :
    ℤ :=
  let (dayStart, dayEnd) := dayBounds day
  let start := match epochStart with
    | some epoch => Aware.max site.zone dayStart (.utc epoch)
    | none => dayStart
  let stop := Aware.min site.zone dayEnd (.utc now)
  if Aware.lt site.zone start stop then
    max ((Aware.sub site.zone stop start - excludedTime site start stop key) /
      (site.interval * second)) 0
  else 0

/-- `HeartbeatEpoch.get_config(key)`. -/
def epochStart (key : Str) : Option Instant := site.epochs.lookup key

/-! ## Folding -/

/-- One row of `daily_stats`. -/
structure Group where
  monitorKey : Str
  date : Day
  okCount : ℤ
  failCount : ℤ
  /-- `Avg("response_time_ms")`. -/
  avgMs : ℚ
  deriving DecidableEq, Repr

def countStatus (status : Status) (beats : List Beat) : ℤ :=
  (beats.countP fun b => b.status = status : ℕ)

/-- The beats of a monitor on a local date. -/
def onDate (key : Str) (day : Day) (b : Beat) : Bool :=
  b.monitorKey = key ∧ site.zone.localDate b.timestamp = day

/-- The beats of a monitor between the bounds of a day. -/
def inBounds (key : Str) (day : Day) (b : Beat) : Bool :=
  b.monitorKey = key ∧ site.zone.midnight day ≤ b.timestamp ∧ b.timestamp < site.zone.midnight (day + 1)

/-- The keys of `daily_stats` in their order. -/
def groupKeys (beats : List Beat) : List (Str × Day) :=
  (beats.map fun b => (b.monitorKey, site.zone.localDate b.timestamp)).dedup.insertionSort
    fun k k' => k.1 < k'.1 ∨ k.1 = k'.1 ∧ k.2 ≤ k'.2

def groupOf (beats : List Beat) (key : Str) (day : Day) : Group :=
  let members := beats.filter (onDate site key day)
  { monitorKey := key
    date := day
    okCount := countStatus .ok members
    failCount := countStatus .fail members
    avgMs := ((members.map Beat.responseTimeMs).sum : ℚ) / members.length }

/-- `daily_stats`: one row for each monitor and local date. -/
def dailyStats (beats : List Beat) : List Group :=
  (groupKeys site beats).map fun (key, day) => groupOf site beats key day

/-- `Heartbeat.objects.filter(timestamp__lt=cutoff)`. -/
def oldRecords (cutoff : Instant) (beats : List Beat) : List Beat :=
  beats.filter fun b => b.timestamp < cutoff

/-- The excluded spans of a group's day. -/
def spansOf (g : Group) : List (Aware × Aware) :=
  excludedRanges site (dayBounds g.date).1 (dayBounds g.date).2 g.monitorKey

/-- `span = batch_qs.filter(timestamp__gte=…, timestamp__lt=…)`. -/
def inSpan (g : Group) (span : Aware × Aware) (old : List Beat) : List Beat :=
  (old.filter (inBounds site g.monitorKey g.date)).filter fun b =>
    span.1.instant site.zone ≤ b.timestamp ∧ b.timestamp < span.2.instant site.zone

/-- Counts of excluded beats. -/
structure Excluded where
  total : ℤ := 0
  ok : ℤ := 0
  deriving DecidableEq, Repr

/-- The loop over the spans of a group. -/
def countExcluded (g : Group) (old : List Beat) : Excluded :=
  (spansOf site g).foldl
    (fun excluded span =>
      { total := excluded.total + (inSpan site g span old).length
        ok := excluded.ok + countStatus .ok (inSpan site g span old) }) {}

/-- `min(round(ok / denominator * 100, places), 100.0)`. -/
def percent (ok denominator : ℤ) (places : ℕ) : ℚ :=
  min (nearestFloat (roundDigits (nearestFloat (nearestFloat (ok / denominator) * 100)) places)) 100

/-- The row of a group that is not there yet. -/
def freshDaily (g : Group) (expected : ℤ) : Daily :=
  { monitorKey := g.monitorKey, date := g.date, expectedCount := expected }

/-- What the counts of a batch make of a row. -/
def addBatch (row : Daily) (g : Group) (excluded : Excluded) (expected : ℤ) : Daily :=
  let slaOk := g.okCount - excluded.ok
  let slaFail := g.failCount - (excluded.total - excluded.ok)
  let batchTotal := slaOk + slaFail
  let priorTotal := row.okCount + row.failCount
  let merged := priorTotal + batchTotal
  let okCount := row.okCount + slaOk
  let failCount := row.failCount + slaFail
  let weighted := nearestFloat (nearestFloat (row.avgResponseMs * priorTotal) +
    nearestFloat (nearestFloat g.avgMs * batchTotal))
  let denominator := max (okCount + failCount) expected
  { row with
    okCount := okCount
    failCount := failCount
    maintenanceCount := row.maintenanceCount + excluded.total
    expectedCount := expected
    avgResponseMs := if merged ≠ 0 then roundHalfEven (nearestFloat (weighted / merged))
      else row.avgResponseMs
    uptimePct := if denominator ≠ 0 then percent okCount denominator 3 else 0 }

/-- The row with a key is written over, or inserted. -/
def put (row : Daily) (daily : List Daily) : List Daily :=
  if (Table.get Daily.key daily row.key).isSome then Table.alter Daily.key row.key (fun _ => row) daily
  else daily ++ [row]

/-! ## The pruner -/

/-- A column constraint that a row violates. -/
inductive IntegrityError
  | check (row : Daily)
  deriving DecidableEq

/-- One round of the loop in `_write_daily_summaries`. -/
def writeSummary (now : Instant) (old : List Beat) (daily : List Daily) (g : Group) :
    Except IntegrityError (List Daily) :=
  let expected := expectedIntervalsForDay site now g.date g.monitorKey (epochStart site g.monitorKey)
  let row := (Table.get Daily.key daily (g.monitorKey, g.date)).getD (freshDaily g expected)
  let written := addBatch row g (countExcluded site g old) expected
  if written.isValid then .ok (put written daily) else .error (.check written)

/-- `_write_daily_summaries`. -/
def writeDailySummaries (now : Instant) (old : List Beat) (daily : List Daily) :
    Except IntegrityError (List Daily) :=
  (dailyStats site old).foldlM (writeSummary site now old) daily

/-- `prune_old_heartbeats`, when nothing runs beside it. An exception rolls the transaction
back. -/
def pruneOldHeartbeats (now : Instant) (db : Db) : Except IntegrityError ℕ × Db :=
  let cutoff := now - site.retentionDays * dayLength
  let old := oldRecords cutoff db.beats
  if old = [] then (.ok 0, db)
  else match writeDailySummaries site now old db.daily with
    | .ok daily =>
        (.ok old.length, { beats := db.beats.filter fun b => ¬b.timestamp < cutoff, daily := daily })
    | .error e => (.error e, db)

end CwStation.Heartbeat
