import CwStation.Model.Reliability

/-! # Workers and the reaper: `apps/tasks/reaper.py` and `heartbeat.py`

What the workers of the queue and the passes of the reaper do to the tables, and the jobs that
all run at once. -/

namespace CwStation.Tasks

open Threads

/-! ## Heartbeats -/

/-- `new_incarnation`. -/
def newIncarnation (label token : Str) : Str := label ++ '#' :: token

namespace World

/-- No process has used the id yet. -/
def unused (w : World) (worker : Str) : Bool :=
  (w.heartbeat worker).isNone && w.live.all (fun l => l.1 ≠ worker) &&
    w.tasks.all fun t => worker ∉ t.workerIds

/-- `register_worker`. A token is never drawn twice, so that the row is always a new one. -/
def registerWorker (worker : Str) (w : World) : World :=
  if w.unused worker then
    { w with
      heartbeats := w.heartbeats ++ [{ workerId := worker, lastSeenAt := w.clock }]
      live := w.live ++ [(worker, w.clock)] }
  else w

/-- `beat`. -/
def beat (worker : Str) (w : World) : World :=
  let seen (hb : WorkerHeartbeat) : WorkerHeartbeat := { hb with lastSeenAt := w.clock }
  { w with
    heartbeats := Table.alter WorkerHeartbeat.workerId worker seen w.heartbeats
    live := Table.alter Prod.fst worker (fun l => (l.1, w.clock)) w.live }

/-- The worker is no longer one that beats in time: it has died, or it is paused. -/
def lapse (worker : Str) (w : World) : World :=
  { w with live := w.live.filter fun l => l.1 ≠ worker }

/-- `mark_stopped`. -/
def markStopped (worker : Str) (w : World) : World :=
  let stop (hb : WorkerHeartbeat) : WorkerHeartbeat :=
    { hb with lastSeenAt := w.clock, stoppedAt := some w.clock }
  { w.lapse worker with
    heartbeats := Table.alter WorkerHeartbeat.workerId worker stop w.heartbeats }

/-- Time passes as long as every live worker can still beat in time. -/
def tick (cfg : Settings) (d : ℕ) (w : World) : World :=
  if w.live.all fun l => w.clock + d ≤ l.2 + seconds cfg.lostAfterSeconds then
    { w with clock := w.clock + d }
  else w

end World

/-! ## Lost tasks -/

/-- Why a task is lost. -/
inductive Reason
  | exited (stoppedAt : Time)
  | silent (lastSeenAt : Time)
  | orphaned (started : Time)
  deriving DecidableEq

/-- `LostTask`, with the number of the reading that it was found in. -/
structure LostTask where
  resultId : ResultId
  workerId : Str
  reason : Reason
  serial : ℕ
  deriving DecidableEq

/-- `_lost_reason`, with the time of the database and that of the pass. -/
def lostReason (cfg : Settings) (row : TaskRow) (hb : Option WorkerHeartbeat) (dbNow now : Time) :
    Option Reason :=
  match hb with
  | some hb =>
      match hb.stoppedAt with
      | some stoppedAt => some (.exited stoppedAt)
      | none =>
          if seconds cfg.lostAfterSeconds < dbNow - hb.lastSeenAt then some (.silent hb.lastSeenAt)
          else none
  | none =>
      let started := row.startedAt.getD row.enqueuedAt
      if started < now - seconds cfg.orphanSeconds then some (.orphaned started) else none

/-- The verdict of a reading on one of its rows. -/
def Reading.verdict (cfg : Settings) (reading : Reading) (row : TaskRow) : Option LostTask :=
  if row.claimant ≠ [] ∧ row.claimant = reading.own then none
  else
    let hb := Table.get WorkerHeartbeat.workerId reading.heartbeats row.claimant
    (lostReason cfg row hb reading.dbNow reading.now).map fun reason =>
      ⟨row.id, row.claimant, reason, reading.serial⟩

/-- The second query of `find_lost_tasks`. -/
def World.readHeartbeats (own : Str) (now : Time) (running : List TaskRow) (w : World) :
    Reading × World :=
  let workerIds := (running.filter TaskRow.ran).map TaskRow.claimant
  let reading : Reading := {
    serial := w.readings.length
    own, now, running
    heartbeats := w.heartbeats.filter fun hb => hb.workerId ∈ workerIds
    dbNow := w.clock }
  (reading, { w with readings := w.readings ++ [reading] })

/-- `find_lost_tasks`, with the number of running tasks. -/
def findLostTasks (cfg : Settings) (own : Str) (now : Time) : Thread (ℕ × List LostTask) := do
  let running ← Prog.read fun w => w.tasks.filter fun t => t.status = .running
  let reading ← Prog.stmt (World.readHeartbeats own now running)
  pure (running.length, running.filterMap (reading.verdict cfg))

/-! ## The pass -/

/-- `HEARTBEAT_RETENTION`. -/
def heartbeatRetention : Time := seconds (7 * 86400)

/-- The delete of `prune_heartbeats`, with the number of rows it deletes. -/
def World.pruneHeartbeats (cutoff : Time) (w : World) : ℕ × World :=
  let old (hb : WorkerHeartbeat) : Bool := hb.stoppedAt.any (· < cutoff) || hb.lastSeenAt < cutoff
  ((w.heartbeats.filter old).length,
    { w with heartbeats := w.heartbeats.filter fun hb => !old hb })

def markLost (serial : ℕ) (now : Time) (t : TaskRow) : TaskRow :=
  { t with
    status := .failed, finishedAt := some now, exceptionClassPath := workerLostPath
    reapedOn := some serial }

/-- `ReapResult`. -/
structure ReapResult where
  running : ℕ
  reaped : List LostTask
  raced : ℕ := 0
  reapedThenCompleted : ℕ := 0
  retried : ℕ := 0
  repaired : ℕ := 0
  heartbeatsPruned : ℕ := 0

/-- What a pass depends on: the incarnation and the clock of its worker, the ids that its
retries draw, and where its calls of `maybe_retry` raise. -/
structure Pass where
  label : Str
  token : Str
  skew : Time
  freshLost : ResultId → ResultId
  freshRepaired : ResultId → ResultId
  lostFaults : ResultId → Option ℕ := fun _ => none
  repairFaults : ResultId → Option ℕ := fun _ => none
  dryRun : Bool := false

/-- The worker that runs the pass, which `safe_reap` excludes. -/
def Pass.own (pass : Pass) : Str := newIncarnation pass.label pass.token

/-- One round of the loop of `reap_lost_tasks`: `none` if the row was no longer running, else
whether it was retried. -/
def reapTask (cfg : Settings) (pass : Pass) (now : Time) (task : LostTask) :
    Thread (Option (LostTask × Bool)) := do
  if ← Prog.stmt (World.updateTask task.resultId .running (markLost task.serial now)) then
    let retried ← (maybeRetry cfg pass.freshLost pass.skew task.resultId .lost).upTo
      (pass.lostFaults task.resultId)
    pure (some (task, retried.join.isSome))
  else pure none

/-- `reap_lost_tasks`. -/
def reapLostTasks (cfg : Settings) (pass : Pass) : Thread ReapResult := do
  let now ← timezoneNow pass.skew
  let (running, lost) ← findLostTasks cfg pass.own now
  if pass.dryRun then pure { running, reaped := lost }
  else do
    let reaped ← Prog.collect (reapTask cfg pass now) lost
    let repaired ← repairMissedRetries cfg pass.freshRepaired pass.repairFaults pass.skew
    let late ← detectLateCompletions pass.skew
    let pruned ← Prog.stmt (World.pruneHeartbeats (now - heartbeatRetention))
    pure {
      running
      reaped := reaped.map Prod.fst
      raced := lost.length - reaped.length
      reapedThenCompleted := late.length
      retried := (reaped.filter Prod.snd).length
      repaired := repaired.length
      heartbeatsPruned := pruned }

/-! ## Workers -/

def claimRow (worker : Str) (now : Time) (t : TaskRow) : TaskRow :=
  { t with status := .running, startedAt := some now, workerIds := t.workerIds ++ [worker] }

def finishRow (outcome : Outcome) (now : Time) (t : TaskRow) : TaskRow :=
  { t with
    status := outcome.status, finishedAt := some now, exceptionClassPath := outcome.path }

/-- The run of one task by a worker. -/
structure Work where
  worker : Str
  skew : Time
  resultId : ResultId
  outcome : Outcome
  fresh : ResultId → ResultId
  lateFault : Option ℕ := none
  retryFault : Option ℕ := none

/-- A worker of the queue: the atomic claim, the result it writes whatever has become of the
row, and the receiver. -/
def work (cfg : Settings) (job : Work) : Thread Unit := do
  let started ← timezoneNow job.skew
  if ← Prog.stmt (World.updateTask job.resultId .ready (claimRow job.worker started)) then
    let finished ← timezoneNow job.skew
    Prog.write fun w => w.alterTask job.resultId (finishRow job.outcome finished)
    retryFailedTask cfg job.fresh job.lateFault job.retryFault job.skew job.resultId
      job.outcome.status

/-! ## Jobs -/

/-- What may be begun at any time. A budget is pinned while its task waits for a worker. -/
inductive Job
  | enqueue (id : ResultId) (spec : TaskSpec) (skew : Time)
  | pin (id : ResultId) (maxAttempts : ℕ) (skew : Time)
  | work (work : Work)
  | retry (fresh : ResultId → ResultId) (skew : Time) (id : ResultId) (cause : Cause)
  | reap (pass : Pass)
  | repair (fresh : ResultId → ResultId) (faults : ResultId → Option ℕ) (skew : Time)
  | detectLate (skew : Time)
  | register (label token : Str)
  | beat (worker : Str)
  | stop (worker : Str)
  | lapse (worker : Str)
  | tick (d : ℕ)

/-- A first attempt that waits for a worker. -/
def World.pinnable (w : World) (id : ResultId) : Bool :=
  (w.task id).any fun t => t.status = .ready && t.retryOf.isNone

def Job.prog (cfg : Settings) : Job → Thread Unit
  | .enqueue id spec skew => Prog.write fun w =>
      (w.insertTask { id, spec, enqueuedAt := w.clock + skew }).getD w
  | .pin id maxAttempts skew => Prog.write fun w =>
      if w.pinnable id then w.pin id maxAttempts (w.clock + skew) else w
  | .work job => Tasks.work cfg job
  | .retry fresh skew id cause => do
      let _ ← maybeRetry cfg fresh skew id cause
  | .reap pass => do
      let _ ← reapLostTasks cfg pass
  | .repair fresh faults skew => do
      let _ ← repairMissedRetries cfg fresh faults skew
  | .detectLate skew => do
      let _ ← detectLateCompletions skew
  | .register label token => Prog.write (World.registerWorker (newIncarnation label token))
  | .beat worker => Prog.write (World.beat worker)
  | .stop worker => Prog.write (World.markStopped worker)
  | .lapse worker => Prog.write (World.lapse worker)
  | .tick d => Prog.write (World.tick cfg d)

/-- The system behind a run of jobs from empty tables. -/
def runJobs (cfg : Settings) (moves : List (Move Job)) : System World :=
  System.run (Job.prog cfg) { state := {} } moves

end CwStation.Tasks
