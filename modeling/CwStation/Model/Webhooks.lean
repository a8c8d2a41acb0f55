import CwStation.Model.Tasks

/-! # Webhook deliveries: `apps/webhooks/services.py`, `tasks.py` and `models.py`

The deliveries, their endpoints and the queue of send tasks. A send task loads its delivery when
it begins and writes its copy back when it ends; in between anything else may happen. -/

namespace CwStation.Webhooks

open Tasks (Time seconds)

/-! ## Rows -/

/-- `WebhookEndpoint.Status`. -/
inductive EndpointStatus
  | success
  | failed
  | retrying
  | dead
  deriving DecidableEq

/-- A `WebhookEndpoint`. -/
structure WebhookEndpoint where
  pk : ℕ
  eventFilter : List Str
  enabled : Bool := true
  lastDeliveryAt : Option Time := none
  lastStatus : Option EndpointStatus := none
  totalDeliveries : ℕ := 0
  consecutiveFailures : ℕ := 0
  deriving DecidableEq

/-- `WebhookDelivery.Status`. -/
inductive DeliveryStatus
  | pending
  | retrying
  | success
  | failed
  | dead
  deriving DecidableEq

/-- A `WebhookDelivery`. -/
structure WebhookDelivery where
  pk : ℕ
  endpoint : ℕ
  eventType : Str
  payload : Str
  eventId : Option Str
  status : DeliveryStatus := .pending
  attempt : ℕ := 0
  maxAttempts : ℕ
  nextAttemptAt : Option Time := none
  responseStatus : Option ℕ := none
  responseMs : Option ℕ := none
  error : Str := []
  deriving DecidableEq

namespace WebhookDelivery

/-- `is_terminal`. -/
def isTerminal (d : WebhookDelivery) : Bool := d.status = .success || d.status = .dead

/-- The filter of `run_due_deliveries`. -/
def due (now : Time) (d : WebhookDelivery) : Bool :=
  d.status = .retrying && d.nextAttemptAt.any (· ≤ now)

end WebhookDelivery

/-- A `deliver_webhook` task that waits for a worker, or that has loaded its delivery. -/
structure SendTask where
  id : ℕ
  delivery : ℕ
  loaded : Option WebhookDelivery := none
  deriving DecidableEq

/-- The settings, and `fnmatch` of the standard library. -/
structure Settings where
  enabled : Bool := true
  outbound : Bool := true
  maxAttempts : ℕ := 5
  backoff : List ℤ := []
  maxBackoff : ℤ := 21600
  autoDisableAfter : ℕ := 20
  fnmatch : Str → Str → Bool

/-- The tables, the queue, and the next primary key and task id. -/
structure Store where
  endpoints : List WebhookEndpoint := []
  deliveries : List WebhookDelivery := []
  queue : List SendTask := []
  nextPk : ℕ := 0
  nextTask : ℕ := 0
  deriving DecidableEq

/-- `WebhookEndpoint.matches`. -/
def WebhookEndpoint.matchesEvent (cfg : Settings) (ep : WebhookEndpoint) (eventType : Str) : Bool :=
  ep.eventFilter.any fun pattern => cfg.fnmatch eventType pattern

namespace Store

def delivery (s : Store) (pk : ℕ) : Option WebhookDelivery :=
  Table.get WebhookDelivery.pk s.deliveries pk

def alterDelivery (s : Store) (pk : ℕ) (f : WebhookDelivery → WebhookDelivery) : Store :=
  { s with deliveries := Table.alter WebhookDelivery.pk pk f s.deliveries }

/-! ## Creating and enqueueing -/

/-- `_enqueue_delivery`; what it raises is only logged. -/
def enqueueDelivery (accepted : Bool) (pk : ℕ) (s : Store) : Store :=
  if accepted then
    { s with queue := s.queue ++ [{ id := s.nextTask, delivery := pk }], nextTask := s.nextTask + 1 }
  else s

/-- `WebhookDelivery.objects.create` and the enqueue behind it. -/
def createDelivery (accepted : Bool) (make : ℕ → WebhookDelivery) (s : Store) : Store :=
  enqueueDelivery accepted s.nextPk
    { s with deliveries := s.deliveries ++ [{ make s.nextPk with pk := s.nextPk }], nextPk := s.nextPk + 1 }

/-- The loop of `fan_out`: one answer of the queue for each endpoint that matches. Where the
answers end, the create has raised. -/
def fanOutLoop (make : WebhookEndpoint → ℕ → WebhookDelivery) :
    List WebhookEndpoint → List Bool → Store → ℕ × Store
  | ep :: endpoints, accepted :: answers, s =>
      let (created, s) := fanOutLoop make endpoints answers (createDelivery accepted (make ep) s)
      (created + 1, s)
  | _, _, s => (0, s)

/-- `fan_out`, with the number of deliveries it has created. -/
def fanOut (cfg : Settings) (eventType payload : Str) (eventId : Option Str) (answers : List Bool)
    (s : Store) : ℕ × Store :=
  if !cfg.enabled || !cfg.outbound then (0, s)
  else
    let make (ep : WebhookEndpoint) (pk : ℕ) : WebhookDelivery :=
      { pk, endpoint := ep.pk, eventType, payload, eventId, maxAttempts := cfg.maxAttempts }
    fanOutLoop make
      (s.endpoints.filter fun ep => ep.enabled && ep.matchesEvent cfg eventType) answers s

/-- `replay_delivery`. -/
def replayDelivery (accepted : Bool) (original : WebhookDelivery) (s : Store) : Store :=
  createDelivery accepted (fun pk => {
    pk
    endpoint := original.endpoint
    eventType := original.eventType
    payload := original.payload
    eventId := original.eventId
    maxAttempts := original.maxAttempts }) s

/-! ## The tick -/

/-- One round of `run_due_deliveries`: the conditional claim and the enqueue. -/
def claimDelivery (accepted : Bool) (pk : ℕ) (observed : Option Time) (s : Store) : ℕ × Store :=
  if (s.delivery pk).any fun d => d.nextAttemptAt = observed then
    (1, enqueueDelivery accepted pk
      (s.alterDelivery pk fun d => { d with status := .pending, nextAttemptAt := none }))
  else (0, s)

def claimLoop : List WebhookDelivery → List Bool → Store → ℕ × Store
  | d :: due, accepted :: answers, s =>
      let (won, s) := claimDelivery accepted d.pk d.nextAttemptAt s
      let (claimed, s) := claimLoop due answers s
      (won + claimed, s)
  | _, _, s => (0, s)

/-- `run_due_deliveries`, with the number of rows it has claimed. -/
def runDueDeliveries (cfg : Settings) (now : Time) (limit : ℕ) (answers : List Bool) (s : Store) :
    ℕ × Store :=
  if !cfg.enabled then (0, s)
  else
    let due := (s.deliveries.filter (WebhookDelivery.due now)).mergeSort
      fun d e => d.nextAttemptAt.getD 0 ≤ e.nextAttemptAt.getD 0
    claimLoop (due.take limit) answers s

end Store

/-! ## Sending -/

/-- `backoff_seconds`. -/
def backoffSeconds (cfg : Settings) (attempt : ℕ) : ℤ :=
  let schedule := if cfg.backoff = [] then [60, 300, 1800, 7200, 21600] else cfg.backoff
  schedule.getD (min (attempt - 1) (schedule.length - 1)) 0

/-- `clamp_backoff`. -/
def clampBackoff (cfg : Settings) (wait : ℤ) : ℤ := max 0 (min wait cfg.maxBackoff)

/-- What the request comes to: an answer with what `parse_retry_after` makes of its header, or an
error, be it of the guard or of the network. -/
inductive Response
  | status (code : ℕ) (retryAfter : Option ℤ)
  | error (text : Str)
  deriving DecidableEq

def Response.code : Response → Option ℕ
  | .status code _ => some code
  | .error _ => none

def Response.text : Response → Str
  | .status _ _ => []
  | .error text => text

/-- `Retry-After` counts for 429 and 503 only. -/
def Response.retryAfter : Response → Option ℤ
  | .status code retryAfter => if code = 429 ∨ code = 503 then retryAfter else none
  | .error _ => none

def Response.succeeded (r : Response) : Bool := r.code.any fun code => 200 ≤ code && code < 300

/-- The copy of the delivery as `_record_attempt` leaves it. -/
def attempted (cfg : Settings) (response : Response) (elapsedMs : ℕ) (now : Time)
    (d : WebhookDelivery) : WebhookDelivery :=
  let d := { d with
    attempt := d.attempt + 1
    responseStatus := response.code
    responseMs := some elapsedMs
    error := response.text.take 2000 }
  if response.succeeded then { d with status := .success, nextAttemptAt := none }
  else if d.maxAttempts ≤ d.attempt then { d with status := .dead, nextAttemptAt := none }
  else
    let wait := match response.retryAfter with
      | some seconds => clampBackoff cfg seconds
      | none => backoffSeconds cfg d.attempt
    { d with status := .retrying, nextAttemptAt := some (now + seconds wait) }

/-- `save(update_fields=_ATTEMPT_FIELDS)` on the row. -/
def saveAttempt (copy row : WebhookDelivery) : WebhookDelivery :=
  { row with
    attempt := copy.attempt
    responseStatus := copy.responseStatus
    responseMs := copy.responseMs
    error := copy.error
    status := copy.status
    nextAttemptAt := copy.nextAttemptAt }

/-- `_bump_endpoint`. -/
def bumpEndpoint (cfg : Settings) (copy : WebhookDelivery) (now : Time) (ep : WebhookEndpoint) :
    WebhookEndpoint :=
  let ep := { ep with lastDeliveryAt := some now, totalDeliveries := ep.totalDeliveries + 1 }
  if copy.status = .success then
    { ep with lastStatus := some .success, consecutiveFailures := 0 }
  else
    let failures := ep.consecutiveFailures + 1
    let status : EndpointStatus := if copy.status = .dead then .dead else .retrying
    { ep with
      lastStatus := some status
      consecutiveFailures := failures
      enabled := ep.enabled && (cfg.autoDisableAfter = 0 || failures < cfg.autoDisableAfter) }

namespace Store

def dropTask (id : ℕ) (s : Store) : Store :=
  { s with queue := s.queue.filter fun t => t.id ≠ id }

/-- A worker begins a `deliver_webhook`: it ends at once if the delivery is gone or terminal. -/
def startTask (id : ℕ) (s : Store) : Store :=
  match Table.get SendTask.id s.queue id with
  | none => s
  | some task =>
      match s.delivery task.delivery with
      | none => s.dropTask id
      | some d =>
          if d.isTerminal then s.dropTask id
          else { s with queue := Table.alter SendTask.id id (fun t => { t with loaded := some d }) s.queue }

/-- How a task ends that has loaded its delivery: with an attempt to record, or by an exception
before it (of a hook, or the death of its worker). -/
inductive Ending
  | answered (response : Response) (elapsedMs : ℕ)
  | raised
  deriving DecidableEq

/-- The end of a `deliver_webhook`. -/
def finishTask (cfg : Settings) (id : ℕ) (ending : Ending) (now : Time) (s : Store) : Store :=
  match Table.get SendTask.id s.queue id with
  | none => s
  | some task =>
      match task.loaded, ending with
      | none, _ => s
      | some _, .raised => s.dropTask id
      | some d, .answered response elapsedMs =>
          let copy := attempted cfg response elapsedMs now d
          let s := (s.dropTask id).alterDelivery d.pk (saveAttempt copy)
          { s with
            endpoints := Table.alter WebhookEndpoint.pk d.endpoint (bumpEndpoint cfg copy now) s.endpoints }

end Store

/-! ## Runs -/

/-- What may happen to the deliveries. -/
inductive Event
  | fanOut (eventType payload : Str) (eventId : Option Str) (answers : List Bool)
  | replay (pk : ℕ) (accepted : Bool)
  | start (task : ℕ)
  | finish (task : ℕ) (ending : Store.Ending) (now : Time)
  | tick (now : Time) (limit : ℕ) (answers : List Bool)

def Store.step (cfg : Settings) (s : Store) : Event → Store
  | .fanOut eventType payload eventId answers => (s.fanOut cfg eventType payload eventId answers).2
  | .replay pk accepted =>
      match s.delivery pk with
      | none => s
      | some original => s.replayDelivery accepted original
  | .start task => s.startTask task
  | .finish task ending now => s.finishTask cfg task ending now
  | .tick now limit answers => (s.runDueDeliveries cfg now limit answers).2

/-- The run of some events, where endpoints have been set up. -/
def runEvents (cfg : Settings) (endpoints : List WebhookEndpoint) (events : List Event) : Store :=
  events.foldl (Store.step cfg) { endpoints }

end CwStation.Webhooks
