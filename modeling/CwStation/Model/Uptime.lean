import CwStation.Model.Heartbeats

/-! # Uptime: `apps/heartbeat/status.py`

The uptime of a day, and since the epoch, from the beats that are left and the summaries of those
that are not. -/

namespace CwStation.Heartbeat

variable (site : Site)

/-- `_get_non_maintenance_counts`: the `ok` and the observed beats outside excluded windows. -/
def nonMaintenanceCounts (beats : List Beat) (start stop : Aware) (key : Str) : ℤ × ℤ :=
  let ranges := excludedRanges site start stop key
  let counted := (beats.filter fun b => b.monitorKey = key ∧ start.instant site.zone ≤ b.timestamp ∧
    b.timestamp < stop.instant site.zone).filter fun b => ∀ r ∈ ranges,
      ¬(r.1.instant site.zone ≤ b.timestamp ∧ b.timestamp < r.2.instant site.zone)
  (countStatus .ok counted, counted.length)

/-! ## By days -/

/-- Whether `raw_by_date` has a row of a day. -/
def hasRaw (db : Db) (key : Str) (start stop day : Day) : Bool :=
  db.beats.any fun b => onDate site key day b ∧ site.zone.midnight start ≤ b.timestamp ∧
    b.timestamp < site.zone.midnight (stop + 1)

/-- The beats of a day: the summary's, and those that are left. -/
def dayCounts (db : Db) (key : Str) (start stop day : Day) : ℤ × ℤ :=
  let (ok, observed) := match Table.get Daily.key db.daily (key, day) with
    | some row => (row.okCount, row.okCount + row.failCount)
    | none => (0, 0)
  if hasRaw site db key start stop day then
    let raw := nonMaintenanceCounts site db.beats (dayBounds day).1 (dayBounds day).2 key
    (ok + raw.1, observed + raw.2)
  else (ok, observed)

/-- The entry of a day in `_daily_uptime_map`. -/
def dayUptime (now : Instant) (db : Db) (key : Str) (start stop day : Day) : Option ℚ :=
  if (Table.get Daily.key db.daily (key, day)).isSome ∨ hasRaw site db key start stop day then
    let (ok, observed) := dayCounts site db key start stop day
    let denominator := if day = site.zone.localDate now then observed
      else max observed (expectedIntervalsForDay site now day key (epochStart site key))
    if denominator ≠ 0 then some (percent ok denominator 2) else none
  else none

/-- `_daily_uptime_map`. -/
def dailyUptimeMap (now : Instant) (db : Db) (key : Str) (start stop : Day) :
    List (Day × Option ℚ) :=
  (List.range (stop - start + 1).toNat).map fun i : ℕ =>
    (start + i, dayUptime site now db key start stop (start + i))

/-! ## Over a window -/

/-- `timestamp.date()` of a datetime in UTC. -/
def utcDate (t : Instant) : Day := t / dayLength

/-- The oldest beat that is left. -/
def oldestRaw (db : Db) (key : Str) : Option Instant :=
  ((db.beats.filter fun b => b.monitorKey = key).map Beat.timestamp).min?

/-- The summaries that `_uptime_over_window` adds up. -/
def summaryRows (db : Db) (key : Str) (first last : Day) : List Daily :=
  db.daily.filter fun row => row.monitorKey = key ∧ first ≤ row.date ∧ row.date < last

/-- `_uptime_over_window(...).uptime`. -/
def uptimeOverWindow (now : Instant) (db : Db) (windowStart : Instant) (key : Str) : Option ℚ :=
  if now - windowStart ≤ 0 then none
  else
    let (rawStart, summaryEnd) := match oldestRaw db key with
      | none => (now, some (utcDate now + 1))
      | some oldest => if windowStart < oldest then (oldest, some (utcDate oldest))
          else (windowStart, none)
    let rows := match summaryEnd with
      | some last => summaryRows db key (utcDate windowStart) last
      | none => []
    let effective := (now - rawStart) - excludedTime site (.utc rawStart) (.utc now) key
    let (rawOk, rawExpected) := if rawStart < now ∧ 0 < effective then
        ((nonMaintenanceCounts site db.beats (.utc rawStart) (.utc now) key).1,
          effective / (site.interval * second))
      else (0, 0)
    let ok := rawOk + (rows.map Daily.okCount).sum
    let expected := rawExpected + (rows.map Daily.expectedCount).sum
    if 1 ≤ expected then some (percent ok expected 2) else none

/-- `HeartbeatEpoch.get_epoch`: the row, or else the oldest beat. -/
def getEpoch (db : Db) (key : Str) : Option Instant := (epochStart site key).or (oldestRaw db key)

/-- `_calc_overall_uptime`. -/
def calcOverallUptime (now : Instant) (db : Db) (key : Str) : Option ℚ :=
  match getEpoch site db key with
  | some epoch => uptimeOverWindow site now db epoch key
  | none => none

/-! ## A history -/

/-- What happens to the tables over time; a prune by itself. -/
inductive Event
  | recorded (b : Beat)
  | pruned (now : Instant)
  deriving DecidableEq

def Db.after (db : Db) : Event → Db
  | .recorded b => { db with beats := db.beats ++ [b] }
  | .pruned now => (pruneOldHeartbeats site now db).2

def history (db : Db) (events : List Event) : Db := events.foldl (Db.after site) db

/-- The beats that a history records. -/
def beatsOf (events : List Event) : List Beat :=
  events.filterMap fun
    | .recorded b => some b
    | .pruned _ => none

/-- The tables as they would be had nothing been pruned. -/
def unpruned (db : Db) (events : List Event) : Db := { db with beats := db.beats ++ beatsOf events }

end CwStation.Heartbeat
