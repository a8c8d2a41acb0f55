import CwStation.Library.Dict
import CwStation.Model.Documents
import CwStation.Model.Floats

/-! # The database log handler: `handlers.py` of `apps/telemetry`

Records wait in a bounded queue. A worker thread and whoever calls `flush` or `close` take them
in batches and write these to the table. Every statement that reads or updates what the threads
share is a turn of its own. -/

namespace CwStation.LogHandler

variable {ρ : Type}

/-! ## The handler -/

/-- The tunables. Times are counted in microseconds. -/
structure Config where
  /-- A queue without a positive bound takes any number of rows. -/
  queueSize : ℤ := 1000
  batchSize : ℕ := 200
  flushInterval : ℕ := 1000000
  shutdownTimeout : ℤ := 3000000

/-- What the threads share, the rows that were written to the table, and the rows that `emit` has
queued or counted as dropped. -/
structure Handler (ρ : Type) where
  level : ℤ := 30
  queue : List ρ := []
  stopping : Bool := false
  dropped : ℕ := 0
  written : ℕ := 0
  errors : ℕ := 0
  noTableUntil : ℤ := 0
  table : List ρ := []
  accepted : List ρ := []

/-- A call of `emit`: whether its thread is inside the handler, the record's level, whether its
logger is excluded, and the row that `_to_row` builds of it. -/
structure Call (ρ : Type) where
  guarded : Bool
  levelno : ℤ
  excluded : Bool
  row : Except PyExc ρ

/-- What comes of a `bulk_create`. A failure may be that the table is missing; `stores` says
whether the rows are in the table nevertheless. -/
inductive Outcome
  | success
  | failure (missing stores : Bool)
  deriving DecidableEq

/-- What a turn meets: the time, what comes of a write, and the level that a poll finds. -/
structure Turn where
  now : ℤ
  outcome : Outcome
  level : Option ℤ := none

/-! ## Threads -/

/-- Who writes batches: the worker thread, or a call of `flush` up to its deadline. -/
inductive Writer
  | worker
  | flush (deadline : ℤ)
  deriving DecidableEq

/-- Where a thread is. -/
inductive Thread (ρ : Type)
  /-- `emit`, before its checks. -/
  | emit (call : Call ρ)
  /-- Before `put_nowait`. -/
  | put (row : ρ)
  /-- The queue was full. -/
  | full (row : ρ)
  | flush
  | close
  /-- Before the next round of a loop. -/
  | loop (w : Writer)
  /-- In `_take_batch`; `waits` before a `get` that blocks. -/
  | take (w : Writer) (waits : Bool) (batch : List ρ)
  /-- Before `_write`. -/
  | write (w : Writer) (rows : List ρ)
  | attempt (w : Writer) (k : ℕ) (rows : List ρ)
  /-- A write has succeeded. -/
  | wrote (w : Writer) (rows : List ρ)
  /-- A write has failed. -/
  | failed (w : Writer) (k : ℕ) (missing : Bool) (rows : List ρ)
  /-- Before `_no_table_until` is set. -/
  | mark (w : Writer) (rows : List ρ)
  /-- Before the rows are counted as dropped. -/
  | drop (w : Writer) (rows : List ρ)
  /-- `_poll_capture`. -/
  | poll
  | done

/-- Where a thread is when `_write` has returned. -/
def Writer.back : Writer → Thread ρ
  | .worker => .poll
  | .flush deadline => .loop (.flush deadline)

/-- Where a thread is when `_take_batch` has returned. -/
def Writer.took (w : Writer) (batch : List ρ) : Thread ρ :=
  match w, batch with
  | .worker, [] => .poll
  | .flush _, [] => .done
  | w, row :: rows => .write w (row :: rows)

/-- Where a thread is when a failed attempt has been counted. -/
def Writer.retry (w : Writer) (k : ℕ) (missing : Bool) (rows : List ρ) : Thread ρ :=
  if missing then .mark w rows else if k = 2 then .drop w rows else .attempt w (k + 1) rows

/-- A thread's next statement. -/
def Thread.next (config : Config) (turn : Turn) : Thread ρ → Handler ρ → Thread ρ × Handler ρ
  | .emit call, h =>
      if call.guarded ∨ call.levelno < h.level ∨ call.excluded then (.done, h)
      else match call.row with
        | .ok row => (.put row, h)
        | .error _ => (.done, { h with errors := h.errors + 1 })
  | .put row, h =>
      if 0 < config.queueSize ∧ config.queueSize ≤ h.queue.length then (.full row, h)
      else (.done, { h with queue := h.queue ++ [row], accepted := h.accepted ++ [row] })
  | .full row, h =>
      (.done, { h with dropped := h.dropped + 1, accepted := h.accepted ++ [row] })
  | .flush, h => (.loop (.flush (turn.now + config.shutdownTimeout)), h)
  | .close, h => (.flush, { h with stopping := true })
  | .loop .worker, h =>
      if h.stopping then (.done, h) else (.take .worker (config.flushInterval ≠ 0) [], h)
  | .loop (.flush deadline), h =>
      if turn.now < deadline then (.take (.flush deadline) false [], h) else (.done, h)
  | .take w waits batch, h =>
      if waits ∨ batch.length < config.batchSize then
        match h.queue with
        | [] => (w.took batch, h)
        | row :: rest => (.take w false (batch ++ [row]), { h with queue := rest })
      else (w.took batch, h)
  | .write w rows, h => (if turn.now < h.noTableUntil then .drop w rows else .attempt w 0 rows, h)
  | .attempt w k rows, h =>
      match turn.outcome with
      | .success => (.wrote w rows, { h with table := h.table ++ rows })
      | .failure missing stores =>
          (.failed w k missing rows, { h with table := if stores then h.table ++ rows else h.table })
  | .wrote w rows, h => (w.back, { h with written := h.written + rows.length })
  | .failed w k missing rows, h => (w.retry k missing rows, { h with errors := h.errors + 1 })
  | .mark w rows, h => (.drop w rows, { h with noTableUntil := turn.now + 60000000 })
  | .drop w rows, h => (w.back, { h with dropped := h.dropped + rows.length })
  | .poll, h => (.loop .worker, { h with level := turn.level.getD h.level })
  | .done, h => (.done, h)

/-! ## Runs -/

structure System (ρ : Type) where
  handler : Handler ρ := {}
  threads : List (Thread ρ) := []

/-- A call begins, `_ensure_worker` starts a worker, or a thread takes its turn. -/
inductive Event (ρ : Type)
  | emit (call : Call ρ)
  | flush
  | close
  | ensureWorker
  | turn (i : ℕ) (turn : Turn)

def System.begin (s : System ρ) (t : Thread ρ) : System ρ :=
  { s with threads := s.threads ++ [t] }

def System.step (config : Config) (s : System ρ) : Event ρ → System ρ
  | .emit call => s.begin (.emit call)
  | .flush => s.begin .flush
  | .close => s.begin .close
  | .ensureWorker =>
      { s with handler := { s.handler with stopping := false } }.begin (.loop .worker)
  | .turn i turn =>
      match s.threads[i]? with
      | none => s
      | some t =>
          let (t', handler) := t.next config turn s.handler
          { handler := handler, threads := s.threads.set i t' }

def run (config : Config) (s : System ρ) (events : List (Event ρ)) : System ρ :=
  events.foldl (System.step config) s

/-- The rows of the batch in a thread's hands. -/
def Thread.batch : Thread ρ → List ρ
  | .take _ _ batch => batch
  | .write _ rows | .attempt _ _ rows | .wrote _ rows | .failed _ _ _ rows | .mark _ rows
  | .drop _ rows => rows
  | _ => []

/-- The rows in batches that are being taken or written. -/
def System.inBatches (s : System ρ) : List ρ := s.threads.flatMap Thread.batch

/-! ## Values of `extra` -/

open Documents

/-- What `json.loads` reads of an escaped text: the two halves of a pair become one character. -/
def joinPairs : Text → Text
  | [] => []
  | .surrogate high :: .surrogate low :: s =>
      if 0xD800 ≤ high ∧ high < 0xDC00 ∧ 0xDC00 ≤ low ∧ low < 0xE000 then
        .char (Char.ofNat (0x10000 + (high - 0xD800) * 0x400 + (low - 0xDC00))) :: joinPairs s
      else .surrogate high :: joinPairs (.surrogate low :: s)
  | c :: s => c :: joinPairs s

/-- An object that JSON has no form for: the name of its type, and its `repr()` or, where that
raises, the `repr()` of the exception. -/
structure Obj where
  typeName : Text
  repr : Except (Except PyExc Text) Text

/-- A key of a `dict`. -/
inductive Key
  | str (s : Text)
  | none
  | bool (b : Bool)
  | int (n : ℤ)
  | float (x : Float64)
  | other

/-- A value as a call site may attach it. A `cycle` is a container inside itself. -/
inductive Value
  | none
  | bool (b : Bool)
  | int (n : ℤ)
  | float (x : Float64)
  | str (s : Text)
  | list (vs : List Value)
  | dict (entries : List (Key × Value))
  | object (o : Obj)
  | cycle

/-- A value as `json.loads` returns it. -/
inductive Json
  | null
  | bool (b : Bool)
  | int (n : ℤ)
  | float (x : Float64)
  | str (s : Text)
  | arr (js : List Json)
  | obj (entries : List (Text × Json))

/-- `json_default`. -/
def jsonDefault (o : Obj) : Except PyExc Text :=
  match o.repr with
  | .ok text =>
      .ok (if 2000 < text.length then text.take 2000 ++ .ofStr "...(truncated)".toList else text)
  | .error raised => do
      pure (.ofStr ['<'] ++ o.typeName ++ .ofStr " repr() raised: ".toList ++ (← raised) ++
        .ofStr ['>'])

/-- How `json` writes numbers, and how deep it descends into containers. -/
structure Encoder where
  floatRepr : Finite64 → Str
  depth : ℕ

/-- The text of a key. -/
def Key.text (encoder : Encoder) : Key → Except PyExc Text
  | .str s => .ok s
  | .none => .ok (.ofStr "null".toList)
  | .bool b => .ok (.ofStr (if b then "true".toList else "false".toList))
  | .int n => (intText n).map .ofStr
  | .float (.num x) => .ok (.ofStr (encoder.floatRepr x))
  | .float (.inf negative) => .ok (.ofStr (if negative then "-Infinity".toList else "Infinity".toList))
  | .float .nan => .ok (.ofStr "NaN".toList)
  | .other => .error ⟨.other, "keys must be str, int, float, bool or None"⟩

def recursionError : PyExc := ⟨.other, "maximum recursion depth exceeded"⟩

mutual

/-- `json.loads(json.dumps(value, default=json_default))`. -/
def roundTrip (encoder : Encoder) : ℕ → Value → Except PyExc Json
  | _, .none => .ok .null
  | _, .bool b => .ok (.bool b)
  | _, .int n => (intText n).map fun _ => .int n
  | _, .float x => .ok (.float x)
  | _, .str s => .ok (.str (joinPairs s))
  | 0, .list _ => .error recursionError
  | depth + 1, .list vs => (roundTrips encoder depth vs).map .arr
  | 0, .dict _ => .error recursionError
  | depth + 1, .dict entries =>
      (roundTripEntries encoder depth entries).map fun l => .obj (Dict.empty.update l).items
  | _, .object o => (jsonDefault o).map fun text => .str (joinPairs text)
  | _, .cycle => .error ⟨.valueError, "Circular reference detected"⟩

def roundTrips (encoder : Encoder) : ℕ → List Value → Except PyExc (List Json)
  | _, [] => .ok []
  | depth, v :: vs => do
      let j ← roundTrip encoder depth v
      let js ← roundTrips encoder depth vs
      pure (j :: js)

def roundTripEntries (encoder : Encoder) :
    ℕ → List (Key × Value) → Except PyExc (List (Text × Json))
  | _, [] => .ok []
  | depth, (key, v) :: entries => do
      let text ← key.text encoder
      let j ← roundTrip encoder depth v
      let l ← roundTripEntries encoder depth entries
      pure ((joinPairs text, j) :: l)

end

/-- `_jsonable`. -/
def jsonable (encoder : Encoder) (extra : List (Text × Value)) : Json :=
  match roundTrip encoder encoder.depth (.dict (extra.map fun e => (.str e.1, e.2))) with
  | .ok j => j
  | .error _ => .obj [(.ofStr "unserializable".toList,
      .str (.ofStr "<extra could not be rendered>".toList))]

/-! ## Rows -/

/-- An attribute of a record; `_redact_request` describes a request. -/
inductive Attribute
  | value (v : Value)
  | request (described : Text)

/-- What `_to_row` reads of a `logging.LogRecord`. What may raise is an `Except`; `excInfo` is the
exception's type with what the formatter makes of it. -/
structure Record where
  timestamp : Except PyExc ℤ
  levelname : Text
  levelno : ℤ
  name : Text
  getMessage : Except PyExc Text
  /-- The text that `safe_message` gives instead. -/
  unformattable : Except PyExc Text
  module : Option Text
  funcName : Option Text
  lineno : Option ℤ
  requestId : Except PyExc Text
  traceId : Except PyExc Text
  excInfo : Option (Text × Except PyExc Text)
  excText : Text
  attributes : List (Text × Attribute)

/-- A row of `telemetry_logrecord`. -/
structure Row where
  ts : ℤ
  level : Text
  levelNo : ℤ
  logger : Text
  message : Text
  module : Text
  func : Text
  line : ℤ
  requestId : Text
  traceId : Text
  excType : Text
  excText : Text
  extra : Json

/-- `_STANDARD_ATTRS`. -/
def standardAttrs : List Text := [
  "args", "asctime", "created", "exc_info", "exc_text", "filename", "funcName", "levelname",
  "levelno", "lineno", "message", "module", "msecs", "msg", "name", "pathname", "process",
  "processName", "relativeCreated", "stack_info", "taskName", "thread", "threadName"].map
    fun s => .ofStr s.toList

/-- `_CONTEXT_ATTRS`. -/
def contextAttrs : List Text := ["request_id", "trace_id"].map fun s => .ofStr s.toList

/-- `extract_extra`. -/
def extractExtra (record : Record) : List (Text × Value) :=
  (record.attributes.filter fun a =>
    a.1 ∉ standardAttrs ∧ a.1 ∉ contextAttrs ∧ a.1.head? ≠ some (.char '_')).map fun
      | (key, .value v) => (key, v)
      | (key, .request described) => (key, .str described)

/-- `safe_message`. -/
def safeMessage (record : Record) : Except PyExc Text :=
  match record.getMessage with
  | .ok text => .ok text
  | .error _ => record.unformattable

/-- The type and the text of the record's exception. -/
def exception (record : Record) : Except PyExc (Text × Text) :=
  match record.excInfo with
  | none => .ok ([], record.excText)
  | some (name, formatted) =>
      if record.excText = [] then formatted.map fun text => (name, text)
      else .ok (name, record.excText)

/-- `_to_row`. -/
def toRow (encoder : Encoder) (record : Record) : Except PyExc Row := do
  let (excType, excText) ← exception record
  let ts ← record.timestamp
  let message ← safeMessage record
  let requestId ← record.requestId
  let traceId ← record.traceId
  pure {
    ts := ts
    level := record.levelname.take 10
    levelNo := max 0 (min record.levelno 32767)
    logger := record.name.take 200
    message := message.take 10000
    module := (record.module.getD []).take 200
    func := (record.funcName.getD []).take 200
    line := max 0 (record.lineno.getD 0)
    requestId := requestId.take 255
    traceId := traceId.take 255
    excType := excType.take 200
    excText := excText.take 20000
    extra := jsonable encoder (extractExtra record) }

end CwStation.LogHandler
