import CwStation.Library.Table
import CwStation.Library.Threads
import CwStation.Model.Python

/-! # The task tables: `apps/tasks/models.py` and `exceptions.py`

The rows of the queue, the attempt rows and the heartbeats, with the statements that write
them. Every statement is atomic; `CwStation.Library.Threads` interleaves them. -/

namespace CwStation.Tasks

abbrev ResultId := ℕ

/-- Microseconds on some clock. -/
abbrev Time := ℤ

def seconds (n : ℤ) : Time := 1000000 * n

/-! ## Exceptions -/

/-- `WORKER_LOST_PATH`. -/
def workerLostPath : Str := "apps.tasks.exceptions.WorkerLost".toList

/-- `RETRY_SUPERSEDED_PATH`. -/
def retrySupersededPath : Str := "apps.tasks.exceptions.RetrySuperseded".toList

/-- `BOOKKEEPING_PATHS`. -/
def bookkeepingPaths : List Str := [retrySupersededPath]

/-- `INTERRUPTED_PATHS`. -/
def interruptedPaths : List Str :=
  ["builtins.SystemExit".toList, "builtins.KeyboardInterrupt".toList]

/-! ## Rows -/

/-- `TaskResultStatus`. -/
inductive Status
  | ready
  | running
  | failed
  | successful
  deriving DecidableEq

/-- What a retry copies from the row it retries. -/
structure TaskSpec where
  taskPath : Str
  queueName : Str
  priority : ℤ
  backendName : Str
  argsKwargs : Str
  deriving DecidableEq

/-- A `DBTaskResult`. Besides its columns, `retryOf` says whose retry has enqueued it and
`reapedOn` on which reading of the reaper it was last declared lost. -/
structure TaskRow where
  id : ResultId
  spec : TaskSpec
  status : Status := .ready
  exceptionClassPath : Str := []
  workerIds : List Str := []
  enqueuedAt : Time
  startedAt : Option Time := none
  finishedAt : Option Time := none
  retryOf : Option ResultId := none
  reapedOn : Option ℕ := none
  deriving DecidableEq

namespace TaskRow

/-- `row.worker_ids[-1] if row.worker_ids else ""`. -/
def claimant (t : TaskRow) : Str := t.workerIds.getLastD []

/-- Who has claimed the row, and since when it runs. -/
def claim (t : TaskRow) : List Str × Option Time × Time := (t.workerIds, t.startedAt, t.enqueuedAt)

/-- A worker has claimed the row. -/
def ran (t : TaskRow) : Bool := !t.workerIds.isEmpty

/-- The row is terminal with a result other than `WorkerLost`. -/
def done (t : TaskRow) : Bool :=
  t.status = .successful || t.status = .failed && t.exceptionClassPath ≠ workerLostPath

/-- The row is a retry that was cancelled before it ran. -/
def cancelled (t : TaskRow) : Bool :=
  t.status = .failed && t.exceptionClassPath = retrySupersededPath && !t.ran

/-- The row carries the verdict of the reaper. -/
def lost (t : TaskRow) : Bool := t.status = .failed && t.exceptionClassPath = workerLostPath

end TaskRow

/-- `TaskAttempt.Cause`. -/
inductive Cause
  | first
  | failed
  | lost
  | interrupted
  | manual
  deriving DecidableEq

/-- A `TaskAttempt`. -/
structure TaskAttempt where
  resultId : ResultId
  rootId : ResultId
  parentId : Option ResultId := none
  attempt : ℕ := 1
  cause : Cause := .first
  maxAttempts : Option ℕ := none
  createdAt : Time
  parentCompletedAt : Option Time := none
  parentStatus : Option Status := none
  retryCancelled : Bool := false
  deriving DecidableEq

/-- A `WorkerHeartbeat`. -/
structure WorkerHeartbeat where
  workerId : Str
  lastSeenAt : Time
  stoppedAt : Option Time := none
  deriving DecidableEq

/-- `AttemptInfo`. -/
structure AttemptInfo where
  rootId : ResultId
  attempt : ℕ
  maxAttempts : Option ℕ
  deriving DecidableEq

def TaskAttempt.info (a : TaskAttempt) : AttemptInfo := ⟨a.rootId, a.attempt, a.maxAttempts⟩

/-- What one pass of the reaper has read: its own incarnation and time, the running rows, and
behind them the heartbeats with the time of the database. `serial` counts the readings. -/
structure Reading where
  serial : ℕ
  own : Str
  now : Time
  running : List TaskRow
  heartbeats : List WorkerHeartbeat
  dbNow : Time
  deriving DecidableEq

/-- The tables and the clock of the database. `live` has the workers that beat in time, with
their last beats, and `readings` what the passes of the reaper have read. -/
structure World where
  tasks : List TaskRow := []
  attempts : List TaskAttempt := []
  heartbeats : List WorkerHeartbeat := []
  clock : Time := 0
  live : List (Str × Time) := []
  readings : List Reading := []
  deriving DecidableEq

namespace World

def task (w : World) (id : ResultId) : Option TaskRow := Table.get TaskRow.id w.tasks id

def attemptOf (w : World) (id : ResultId) : Option TaskAttempt :=
  Table.get TaskAttempt.resultId w.attempts id

def heartbeat (w : World) (worker : Str) : Option WorkerHeartbeat :=
  Table.get WorkerHeartbeat.workerId w.heartbeats worker

/-- `attempt_info`. -/
def attemptInfo (w : World) (id : ResultId) : AttemptInfo :=
  ((w.attemptOf id).map TaskAttempt.info).getD ⟨id, 1, none⟩

/-! ## Statements on task rows -/

def alterTask (w : World) (id : ResultId) (f : TaskRow → TaskRow) : World :=
  { w with tasks := Table.alter TaskRow.id id f w.tasks }

/-- An `UPDATE` of one row that asks for its status, and whether it has updated it. -/
def updateTask (id : ResultId) (status : Status) (f : TaskRow → TaskRow) (w : World) :
    Bool × World :=
  if (w.task id).any fun t => t.status = status then (true, w.alterTask id f) else (false, w)

/-- The insert of a task row; `none` is an `IntegrityError`. -/
def insertTask (t : TaskRow) (w : World) : Option World :=
  if (w.task t.id).isSome then none else some { w with tasks := w.tasks ++ [t] }

/-! ## Statements on attempt rows -/

/-- The insert of an attempt row under the unique `result_id` and `parent_id`. -/
def insertAttempt (a : TaskAttempt) (w : World) : Option World :=
  if (w.attemptOf a.resultId).isSome ∨
      a.parentId.isSome ∧ w.attempts.any fun b => b.parentId = a.parentId then none
  else some { w with attempts := w.attempts ++ [a] }

/-- `transaction.atomic()`: what raises is rolled back. -/
def atomic (f : World → Option World) (w : World) : Bool × World :=
  match f w with
  | some w' => (true, w')
  | none => (false, w)

/-- `pin_max_attempts`. -/
def pin (id : ResultId) (maxAttempts : ℕ) (now : Time) (w : World) : World :=
  let reset (a : TaskAttempt) : TaskAttempt :=
    { a with rootId := id, attempt := 1, maxAttempts := some maxAttempts }
  if (w.attemptOf id).isSome then
    { w with attempts := Table.alter TaskAttempt.resultId id reset w.attempts }
  else
    { w with attempts := w.attempts ++ [reset { resultId := id, rootId := id, createdAt := now }] }

end World

end CwStation.Tasks
