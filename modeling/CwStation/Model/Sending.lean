import CwStation.Library.Dict
import CwStation.Model.Webhooks

/-! # Sending a webhook: `deliver_webhook`, `parse_retry_after` and the seams of `hooks.py`

What is not in the repository is a field of `Outside`: the hooks that a site registers, the guard's
name lookups, the standard library, and the peer. -/

namespace CwStation.Webhooks

open Tasks (Time seconds)

abbrev Headers := Dict Str Str

/-! ## Values that pass through the seams -/

/-- What sending reads of a `WebhookEndpoint`; the static headers have their values as texts. -/
structure Destination where
  targetUrl : Str
  secret : Str
  headers : Headers

/-- `Transformed`. -/
structure Transformed where
  body : List UInt8
  contentType : Str := "application/json".toList

/-- `OutgoingRequest`. -/
structure OutgoingRequest where
  url : Str
  body : List UInt8
  headers : Headers
  eventType : Str

/-- `AuthResult`. -/
structure AuthResult where
  headers : Headers := Dict.empty
  params : List (Str × Str) := []

/-- A `urllib.request.Request`. -/
structure HttpRequest where
  url : Str
  data : List UInt8
  headers : Headers

/-- What a request comes to: the guard or the connection blocks it, the peer answers, with its
`Retry-After`, or there is another error. -/
inductive Exchange
  | blocked (reason : Str)
  | answered (code : ℕ) (retryAfter : Option Str)
  | failed (text : Str)

structure Outside where
  unicode : Unicode
  /-- `str.capitalize`. -/
  capitalize : Str → Str
  /-- `parsedate_to_datetime`, where a naive date is in UTC. -/
  parsedate : Str → Except PyExc Time
  /-- `int(delta.total_seconds())`, where the seconds are a floating-point number. -/
  wholeSeconds : ℤ → ℤ
  transform : Str → Except PyExc Transformed
  auth : OutgoingRequest → Destination → Except PyExc AuthResult
  /-- The query of a URL, with more parameters. -/
  addParams : Str → List (Str × Str) → Str
  /-- The reason for which `url_is_allowed` refuses a URL. -/
  urlRefused : Str → Except PyExc (Option Str)
  currentOrigin : Str
  peer : HttpRequest → Exchange

/-! ## Headers -/

def contentTypeHeader : Str := "Content-Type".toList

/-- `SIGNATURE_HEADER`. -/
def signatureHeader : Str := "X-SmallStack-Signature".toList

/-- `EVENT_HEADER`. -/
def eventHeader : Str := "X-SmallStack-Event".toList

/-- `DELIVERY_HEADER`. -/
def deliveryHeader : Str := "X-SmallStack-Delivery".toList

/-- `EVENT_ID_HEADER`. -/
def eventIdHeader : Str := "X-SmallStack-Event-Id".toList

/-- `ORIGIN_HEADER`. -/
def originHeader : Str := "X-SmallStack-Origin".toList

/-- The headers of a delivery before its credentials. -/
def deliveryHeaders (out : Outside) (contentType : Str) (d : WebhookDelivery) : Headers :=
  Dict.empty.update ([
    (contentTypeHeader, contentType),
    (eventHeader, d.eventType),
    (deliveryHeader, Nat.toDigits 10 d.pk),
    (originHeader, out.currentOrigin),
    ("User-Agent".toList, "SmallStack-Webhooks/1.0".toList)] ++
    d.eventId.toList.map fun eventId => (eventIdHeader, eventId))

/-- `_default_auth`, with `signature_header_value`. -/
def defaultAuth (signatureHeaderValue : Str → List UInt8 → Str) (request : OutgoingRequest)
    (dest : Destination) : AuthResult where
  headers := Dict.empty.set signatureHeader (signatureHeaderValue dest.secret request.body)

/-- The headers of `Request`: each name is capitalized, and the last value stays. -/
def capitalized (out : Outside) (headers : Headers) : Headers :=
  Dict.empty.update (headers.items.map fun x => (out.capitalize x.1, x.2))

/-- The request of `deliver_webhook`: credentials go over the delivery's own headers, and the static
headers of the endpoint come last, where their names are not there yet. -/
def buildRequest (out : Outside) (dest : Destination) (d : WebhookDelivery)
    (transformed : Transformed) (auth : AuthResult) : HttpRequest where
  url := if auth.params = [] then dest.targetUrl else out.addParams dest.targetUrl auth.params
  data := transformed.body
  headers := capitalized out (((deliveryHeaders out transformed.contentType d).update
    auth.headers.items).fill dest.headers.items)

/-! ## `Retry-After` -/

/-- `str.isdigit`. -/
def isDigits (u : Unicode) (s : Str) : Bool := s ≠ [] && s.all u.isDigit

/-- `parse_retry_after`; of what `parsedate_to_datetime` raises it catches a `ValueError` (and the
`TypeError` of earlier Pythons). -/
def parseRetryAfter (out : Outside) (now : Time) (value : Option Str) : Except PyExc (Option ℤ) :=
  match value.getD [] with
  | [] => .ok none
  | c :: rest =>
      let value := strip (c :: rest)
      if isDigits out.unicode value then (pyInt out.unicode value).map some
      else match out.parsedate value with
        | .error e => if e.cls = .valueError then .ok none else .error e
        | .ok date => .ok (some (max 0 (out.wholeSeconds (date - now))))

/-! ## Sending -/

/-- The attempt as far as the wire: the seams, the guard and the peer. -/
def exchange (out : Outside) (dest : Destination) (d : WebhookDelivery) : Except PyExc Exchange := do
  let transformed ← out.transform d.payload
  let headers := deliveryHeaders out transformed.contentType d
  let auth ← out.auth
    { url := dest.targetUrl, body := transformed.body, headers, eventType := d.eventType } dest
  let request := buildRequest out dest d transformed auth
  match ← out.urlRefused request.url with
  | some reason => return .blocked reason
  | none => return out.peer request

/-- What is kept of an exchange: `Retry-After` is parsed for 429 and 503. -/
def Exchange.response (out : Outside) (now : Time) : Exchange → Except PyExc Response
  | .blocked reason => .ok (.error ("blocked by SSRF guard: ".toList ++ reason))
  | .answered code retryAfter =>
      if code = 429 ∨ code = 503 then (parseRetryAfter out now retryAfter).map (.status code)
      else .ok (.status code none)
  | .failed text => .ok (.error text)

/-- `_record_attempt`. -/
def Store.recordAttempt (cfg : Settings) (response : Response) (elapsedMs : ℕ) (now : Time)
    (d : WebhookDelivery) (s : Store) : Store :=
  let copy := attempted cfg response elapsedMs now d
  let s := s.alterDelivery d.pk (saveAttempt copy)
  { s with endpoints := Table.alter WebhookEndpoint.pk d.endpoint (bumpEndpoint cfg copy now) s.endpoints }

/-- `deliver_webhook`; `sent` is when the answer is there, `recorded` when it is recorded. -/
def Store.deliverWebhook (cfg : Settings) (out : Outside) (dest : Destination) (sent recorded : Time)
    (elapsedMs : ℕ) (pk : ℕ) (s : Store) : Except PyExc Store :=
  match s.delivery pk with
  | none => .ok s
  | some d =>
      if d.isTerminal then .ok s
      else do
        let response ← (← exchange out dest d).response out sent
        return s.recordAttempt cfg response elapsedMs recorded d

/-- A send task that answers ends as `deliver_webhook` does. -/
theorem finishTask_eq {cfg : Settings} {id : ℕ} {response : Response} {elapsedMs : ℕ} {now : Time}
    {s : Store} {task : SendTask} {d : WebhookDelivery}
    (htask : Table.get SendTask.id s.queue id = some task) (hloaded : task.loaded = some d) :
    s.finishTask cfg id (.answered response elapsedMs) now =
      (s.dropTask id).recordAttempt cfg response elapsedMs now d := by
  simp only [Store.finishTask, htask, hloaded]
  rfl

end CwStation.Webhooks
