import CwStation.Library.Requests
import CwStation.Model.Heartbeats

/-! # Prunes at once: `prune_old_heartbeats` statement by statement

Each prune is a transaction under READ COMMITTED. Every statement sees what is committed when it
runs, with the transaction's own changes over it. A row that another transaction has written to,
and not committed, makes the statement wait. -/

namespace CwStation.Heartbeat

open Requests

variable (site : Site)

/-- The tables, and the rows that open transactions have written to. -/
structure Shared where
  db : Db
  rowLocks : List (Str × Day) := []
  beatLocks : List ℕ := []
  deriving DecidableEq

/-- The next statement of a prune, with what the statements before it have read. -/
inductive Point
  /-- `old_records.exists()`. -/
  | check
  /-- The query of `daily_stats`. -/
  | stats
  /-- `span.count()`. -/
  | countSpan (g : Group) (groups : List Group) (span : Aware × Aware) (spans : List (Aware × Aware))
      (excluded : Excluded)
  /-- `span.filter(status="ok").count()`. -/
  | countSpanOk (g : Group) (groups : List Group) (span : Aware × Aware)
      (spans : List (Aware × Aware)) (excluded : Excluded)
  /-- The `get` of `get_or_create`. -/
  | get (g : Group) (groups : List Group) (excluded : Excluded)
  /-- Its `create`; when the row is there by now, it is read again. -/
  | create (g : Group) (groups : List Group) (excluded : Excluded)
  /-- `row.save()`. -/
  | save (row : Daily) (groups : List Group)
  /-- `old_records.delete()` reads the rows, since signals want them. -/
  | collect
  /-- The `DELETE` of the rows that were read. -/
  | delete (pks : List ℕ)
  | commit
  | done (result : Except IntegrityError ℕ)
  deriving DecidableEq

/-- A prune on its way: its changes so far, and its next statement. -/
structure Place where
  now : Instant
  writes : List Daily := []
  doomed : List ℕ := []
  point : Point
  deriving DecidableEq

def Place.cutoff (p : Place) : Instant := p.now - site.retentionDays * dayLength

/-- The beats that the prune is about, as a statement sees them. -/
def Place.old (p : Place) (s : Shared) : List Beat := oldRecords (p.cutoff site) s.db.beats

/-- The summaries as the transaction sees them. -/
def Place.visible (p : Place) (s : Shared) : List Daily :=
  p.writes.foldl (fun daily row => put row daily) s.db.daily

/-- The first count of a group, or what comes behind the counts. -/
def countSpans (g : Group) (groups : List Group) (excluded : Excluded) :
    List (Aware × Aware) → Point
  | [] => .get g groups excluded
  | span :: spans => .countSpan g groups span spans excluded

def nextGroup : List Group → Point
  | [] => .collect
  | g :: groups => countSpans g groups {} (spansOf site g)

/-- `expected` for a group. -/
def Place.expected (p : Place) (g : Group) : ℤ :=
  expectedIntervalsForDay site p.now g.date g.monitorKey (epochStart site g.monitorKey)

/-- The row that `row.save()` is to write. -/
def summed (p : Place) (row : Daily) (g : Group) (excluded : Excluded) : Daily :=
  addBatch row g excluded (p.expected site g)

/-- The locks without those of a transaction. -/
def Shared.release (s : Shared) (p : Place) : Shared :=
  { s with
    rowLocks := s.rowLocks.filter fun k => k ∉ p.writes.map Daily.key
    beatLocks := s.beatLocks.filter fun pk => pk ∉ p.doomed }

/-- A prune takes its next statement, or waits for a lock. -/
def statement (p : Place) (s : Shared) : Place × Shared :=
  match p.point with
  | .check =>
      if p.old site s = [] then ({ p with point := .done (.ok 0) }, s)
      else ({ p with point := .stats }, s)
  | .stats => ({ p with point := nextGroup site (dailyStats site (p.old site s)) }, s)
  | .countSpan g groups span spans excluded =>
      let total := excluded.total + (inSpan site g span (p.old site s)).length
      ({ p with point := .countSpanOk g groups span spans { excluded with total := total } }, s)
  | .countSpanOk g groups span spans excluded =>
      let ok := excluded.ok + countStatus .ok (inSpan site g span (p.old site s))
      ({ p with point := countSpans g groups { excluded with ok := ok } spans }, s)
  | .get g groups excluded =>
      match Table.get Daily.key (p.visible s) (g.monitorKey, g.date) with
      | some row => ({ p with point := .save (summed site p row g excluded) groups }, s)
      | none => ({ p with point := .create g groups excluded }, s)
  | .create g groups excluded =>
      let fresh := freshDaily g (p.expected site g)
      if fresh.key ∈ s.rowLocks then (p, s)
      else if (Table.get Daily.key (p.visible s) fresh.key).isSome then
        ({ p with point := .get g groups excluded }, s)
      else
        ({ p with
            writes := p.writes ++ [fresh]
            point := .save (summed site p fresh g excluded) groups },
          { s with rowLocks := fresh.key :: s.rowLocks })
  | .save row groups =>
      if row.key ∈ s.rowLocks ∧ row.key ∉ p.writes.map Daily.key then (p, s)
      else if row.isValid then
        ({ p with writes := p.writes ++ [row], point := nextGroup site groups },
          { s with rowLocks := row.key :: s.rowLocks })
      else ({ p with point := .done (.error (.check row)) }, s.release p)
  | .collect => ({ p with point := .delete ((p.old site s).map Beat.pk) }, s)
  | .delete pks =>
      if ∃ pk ∈ pks, pk ∈ s.beatLocks then (p, s)
      else
        let doomed := (s.db.beats.filter fun b => b.pk ∈ pks).map Beat.pk
        ({ p with doomed := doomed, point := .commit },
          { s with beatLocks := doomed ++ s.beatLocks })
  | .commit =>
      let db : Db :=
        { beats := s.db.beats.filter fun b => b.pk ∉ p.doomed, daily := p.visible s }
      ({ p with point := .done (.ok p.doomed.length) }, { (s.release p) with db := db })
  | .done _ => (p, s)

/-- A prune begins; `now` is what `now()` says. -/
def startPrune (now : Instant) : Place := { now := now, point := .check }

/-- The service on a database: prunes come and take turns. -/
def prunes (db : Db) (turns : List (Turn Instant)) : Server Instant Place Shared :=
  Server.run startPrune (statement site) { state := { db := db } } turns

def Point.isDone : Point → Bool
  | .done _ => true
  | _ => false

/-! ## What is counted -/

/-- The beats that a summary row stands for. -/
def Daily.folded (row : Daily) : ℤ := row.okCount + row.failCount + row.maintenanceCount

/-- The beats in the summaries, and those in the table. -/
def Db.tally (db : Db) : ℤ := (db.daily.map Daily.folded).sum + db.beats.length

end CwStation.Heartbeat
