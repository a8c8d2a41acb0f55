import CwStation.Library.Scripts
import CwStation.Model.Webhooks

/-! # Webhook deliveries, statement by statement

What fans out, replays, ticks and sends takes turns here. A send loads its copy of the delivery in
one statement and records its attempt in another one; a worker takes a send task once. -/

namespace CwStation.Webhooks

open Tasks (Time)
open Scripts

/-! ## Statements -/

/-- A `claim` is the conditional update of `run_due_deliveries`. -/
inductive Statement
  | matching (eventType : Str)
  | load (pk : ℕ)
  | create (make : ℕ → WebhookDelivery)
  | enqueue (pk : ℕ) (accepted : Bool)
  | due (now : Time) (limit : ℕ)
  | claim (pk : ℕ) (observed : Option Time)
  | start (task : ℕ)
  | finish (task : ℕ) (ending : Store.Ending) (now : Time)

/-- A `start` tells whether its send goes on, a `finish` the copy that it has saved. -/
abbrev Answer : Statement → Type
  | .matching _ => List WebhookEndpoint
  | .load _ => Option WebhookDelivery
  | .create _ => ℕ
  | .enqueue _ _ => Unit
  | .due _ _ => List WebhookDelivery
  | .claim _ _ => Bool
  | .start _ => Bool
  | .finish _ _ _ => Option WebhookDelivery

abbrev Call := Script Statement Answer

abbrev perform (op : Statement) : Call (Answer op) := Script.perform op

namespace Store

/-- A task that waits for a worker. -/
def waiting (task : ℕ) (s : Store) : Bool :=
  (Table.get SendTask.id s.queue task).any fun t => t.loaded.isNone

/-- A task that has loaded its delivery. -/
def loaded (task : ℕ) (s : Store) : Option WebhookDelivery :=
  (Table.get SendTask.id s.queue task).bind SendTask.loaded

/-- The copy that a send saves. -/
def outcome (cfg : Settings) (task : ℕ) (ending : Ending) (now : Time) (s : Store) :
    Option WebhookDelivery :=
  match ending with
  | .raised => none
  | .answered response elapsedMs => (s.loaded task).map (attempted cfg response elapsedMs now)

/-- The query of `run_due_deliveries`. -/
def dueDeliveries (now : Time) (limit : ℕ) (s : Store) : List WebhookDelivery :=
  ((s.deliveries.filter (WebhookDelivery.due now)).mergeSort
    fun d e => d.nextAttemptAt.getD 0 ≤ e.nextAttemptAt.getD 0).take limit

end Store

/-- What a statement answers and does. -/
def exec (cfg : Settings) : (op : Statement) → Store → Answer op × Store
  | .matching eventType, s =>
      (s.endpoints.filter fun ep => ep.enabled && ep.matchesEvent cfg eventType, s)
  | .load pk, s => (s.delivery pk, s)
  | .create make, s =>
      (s.nextPk, { s with
        deliveries := s.deliveries ++ [{ make s.nextPk with pk := s.nextPk }]
        nextPk := s.nextPk + 1 })
  | .enqueue pk accepted, s => ((), s.enqueueDelivery accepted pk)
  | .due now limit, s => (s.dueDeliveries now limit, s)
  | .claim pk observed, s =>
      if (s.delivery pk).any fun d => d.nextAttemptAt = observed then
        (true, s.alterDelivery pk fun d => { d with status := .pending, nextAttemptAt := none })
      else (false, s)
  | .start task, s =>
      if s.waiting task then (((s.startTask task).loaded task).isSome, s.startTask task)
      else (false, s)
  | .finish task ending now, s =>
      (s.outcome cfg task ending now, s.finishTask cfg task ending now)

/-! ## Programs -/

/-- The create and the enqueue behind it. -/
def createDelivery (accepted : Bool) (make : ℕ → WebhookDelivery) : Call Unit := do
  let pk ← perform (.create make)
  perform (.enqueue pk accepted)

def fanOutLoop (make : WebhookEndpoint → ℕ → WebhookDelivery) :
    List WebhookEndpoint → List Bool → Call ℕ
  | ep :: endpoints, accepted :: answers => do
      createDelivery accepted (make ep)
      let created ← fanOutLoop make endpoints answers
      return created + 1
  | _, _ => return 0

/-- `fan_out`. -/
def fanOut (cfg : Settings) (eventType payload : Str) (eventId : Option Str) (answers : List Bool) :
    Call ℕ :=
  if !cfg.enabled || !cfg.outbound then return 0
  else do
    let make (ep : WebhookEndpoint) (pk : ℕ) : WebhookDelivery :=
      { pk, endpoint := ep.pk, eventType, payload, eventId, maxAttempts := cfg.maxAttempts }
    let endpoints ← perform (.matching eventType)
    fanOutLoop make endpoints answers

/-- `replay_delivery` of a delivery that is there. -/
def replayDelivery (accepted : Bool) (pk : ℕ) : Call Unit := do
  match ← perform (.load pk) with
  | none => return
  | some original =>
      createDelivery accepted fun pk => {
        pk
        endpoint := original.endpoint
        eventType := original.eventType
        payload := original.payload
        eventId := original.eventId
        maxAttempts := original.maxAttempts }

/-- One round of `run_due_deliveries`: the claim, and the enqueue where it has won. -/
def claimDelivery (accepted : Bool) (d : WebhookDelivery) : Call ℕ := do
  if ← perform (.claim d.pk d.nextAttemptAt) then
    perform (.enqueue d.pk accepted)
    return 1
  return 0

def claimLoop : List WebhookDelivery → List Bool → Call ℕ
  | d :: due, accepted :: answers => do
      let won ← claimDelivery accepted d
      let claimed ← claimLoop due answers
      return won + claimed
  | _, _ => return 0

/-- `run_due_deliveries`. -/
def runDueDeliveries (cfg : Settings) (now : Time) (limit : ℕ) (answers : List Bool) : Call ℕ :=
  if !cfg.enabled then return 0
  else do
    let due ← perform (.due now limit)
    claimLoop due answers

/-- `deliver_webhook`, with what its request comes to and the moment of its record. -/
def deliverWebhook (task : ℕ) (ending : Store.Ending) (now : Time) : Call Unit := do
  if ← perform (.start task) then
    let _ ← perform (.finish task ending now)

/-! ## Sessions -/

/-- What takes turns. -/
inductive Job
  | fanOut (eventType payload : Str) (eventId : Option Str) (answers : List Bool)
  | replay (pk : ℕ) (accepted : Bool)
  | tick (now : Time) (limit : ℕ) (answers : List Bool)
  | send (task : ℕ) (ending : Store.Ending) (now : Time)

def Job.script (cfg : Settings) : Job → Call Unit
  | .fanOut eventType payload eventId answers => do
      let _ ← Webhooks.fanOut cfg eventType payload eventId answers
  | .replay pk accepted => replayDelivery accepted pk
  | .tick now limit answers => do
      let _ ← runDueDeliveries cfg now limit answers
  | .send task ending now => deliverWebhook task ending now

abbrev Deliveries := Session Statement Answer Store Job Unit

/-- The run of some moves, where endpoints have been set up. -/
def runSession (cfg : Settings) (endpoints : List WebhookEndpoint) (moves : List (Move Job)) :
    Deliveries :=
  Session.run (exec cfg) (Job.script cfg) { store := { endpoints } } moves

end CwStation.Webhooks
