import CwStation.Library.Effects
import CwStation.Model.Tasks

/-! # Pairing with a peer: `pair_smallstack` of `apps/webhooks/services.py`

What the database refuses is a second receiver with one slug; it checks no lengths. -/

namespace CwStation.Pairing

open Tasks (Time)

/-! ## Rows -/

/-- What pairing reads and writes of a `WebhookEndpoint`. -/
structure Endpoint where
  pk : ℕ
  name : Str
  targetUrl : Str
  secret : Str
  eventFilter : List Str
  enabled : Bool := true
  isPaired : Bool := false
  transform : Str := "smallstack".toList
  authScheme : Str := "hmac".toList
  owner : Option ℕ := none
  updatedAt : Time
  deriving DecidableEq

/-- What pairing reads and writes of a `WebhookReceiver`. -/
structure Receiver where
  pk : ℕ
  name : Str
  slug : Str
  secret : Str
  requireSignature : Bool := true
  enabled : Bool := true
  isPaired : Bool := false
  verifier : Str := "hmac".toList
  ignoreOrigin : Str := []
  owner : Option ℕ := none
  updatedAt : Time
  deriving DecidableEq

/-- The two tables; slugs are unique. -/
@[ext]
structure Db where
  endpoints : Table.Numbered Endpoint.pk
  receivers : Table.Numbered Receiver.pk
  slugs : Table.Unique Receiver.slug receivers.rows

/-! ## The call -/

/-- The arguments of `pair_smallstack`. -/
structure Args where
  targetUrl : Str
  events : Option (List Str) := none
  name : Option Str := none
  slug : Option Str := none
  sendSecret : Option Str := none
  recvSecret : Option Str := none
  secret : Option Str := none
  oneWay : Bool := false
  owner : Option ℕ := none

/-- What is not in the repository, or the same for all calls of a process. -/
structure Site where
  /-- `hashlib.sha256(text.encode()).hexdigest()`. -/
  sha256Hex : Str → Str
  /-- `json.dumps` of a list of texts. -/
  jsonDumps : List Str → Str
  currentOrigin : Str

/-- What one call meets: what `generate_secret` gives it, when its rows are saved, and the reason
for which `url_is_allowed` refuses a URL. -/
structure Call where
  sendSecret : Str
  recvSecret : Str
  endpointSaved : Time
  receiverSaved : Time
  urlRefused : Str → Except PyExc (Option Str)

/-- The result of `pair_smallstack`. -/
structure Paired where
  endpointId : ℕ
  receiverId : Option ℕ
  receiverSlug : Option Str
  inboundUrl : Option Str
  inboundUrlAbsolute : Option Str
  sendSecret : Str
  recvSecret : Str
  origin : Str
  events : List Str
  oneWay : Bool
  endpointCreated : Bool
  mirrorCommand : Str
  warnings : List Str

/-- `a or b` of texts. -/
def orElse (a b : Option Str) : Option Str := if a.getD [] = [] then b else a

/-- The text, if it is there and not empty. -/
def given (a : Option Str) : Option Str := a.filter (· ≠ [])

/-- `pairing_slug`. -/
def pairingSlug (site : Site) (targetUrl : Str) : Str :=
  "paired-".toList ++ (site.sha256Hex targetUrl).take 8

namespace Args

def eventFilter (args : Args) : List Str :=
  let events := args.events.getD []
  if events = [] then ["*".toList] else events

def base (args : Args) : Str :=
  (given args.name).getD ("SmallStack ".toList ++ args.targetUrl)

/-- `slug or pairing_slug(target_url)`. -/
def baseSlug (site : Site) (args : Args) : Str :=
  (given args.slug).getD (pairingSlug site args.targetUrl)

/-- `send_secret or secret`, if that is true. -/
def resolvedSend (args : Args) : Option Str := given (orElse args.sendSecret args.secret)

/-- `recv_secret or secret`, if that is true. -/
def resolvedRecv (args : Args) : Option Str := given (orElse args.recvSecret args.secret)

/-- The endpoint that is created. -/
def newEndpoint (args : Args) (call : Call) (pk : ℕ) : Endpoint where
  pk
  name := args.base ++ " (out)".toList
  targetUrl := args.targetUrl
  secret := args.resolvedSend.getD call.sendSecret
  eventFilter := args.eventFilter
  isPaired := true
  owner := args.owner
  updatedAt := call.endpointSaved

/-- What is written to an endpoint that was there. -/
def updateEndpoint (args : Args) (saved : Time) (e : Endpoint) : Endpoint :=
  { e with
    name := args.base ++ " (out)".toList
    eventFilter := args.eventFilter
    transform := "smallstack".toList
    authScheme := "hmac".toList
    enabled := true
    secret := args.resolvedSend.getD e.secret
    updatedAt := saved }

/-- The receiver that is created. -/
def newReceiver (site : Site) (args : Args) (call : Call) (slug : Str) (pk : ℕ) : Receiver where
  pk
  name := args.base ++ " (in)".toList
  slug
  secret := args.resolvedRecv.getD call.recvSecret
  isPaired := true
  ignoreOrigin := site.currentOrigin
  owner := args.owner
  updatedAt := call.receiverSaved

/-- What is written to a receiver that was there. -/
def updateReceiver (site : Site) (args : Args) (saved : Time) (r : Receiver) : Receiver :=
  { r with
    name := args.base ++ " (in)".toList
    verifier := "hmac".toList
    requireSignature := true
    ignoreOrigin := site.currentOrigin
    enabled := true
    secret := args.resolvedRecv.getD r.secret
    updatedAt := saved }

variable (site : Site) (args : Args) (call : Call)

theorem newEndpoint_pk (pk : ℕ) : (args.newEndpoint call pk).pk = pk := rfl

theorem updateEndpoint_pk (saved : Time) (e : Endpoint) : (args.updateEndpoint saved e).pk = e.pk :=
  rfl

theorem newReceiver_pk (slug : Str) (pk : ℕ) : (args.newReceiver site call slug pk).pk = pk := rfl

theorem updateReceiver_pk (saved : Time) (r : Receiver) :
    (args.updateReceiver site saved r).pk = r.pk := rfl

theorem updateReceiver_slug (saved : Time) (r : Receiver) :
    (args.updateReceiver site saved r).slug = r.slug := rfl

end Args

/-! ## Statements -/

abbrev Pair := EStateM PyExc Db

/-- `MultipleObjectsReturned`. -/
def multiple (model : String) : PyExc :=
  ⟨.other, "get() returned more than one " ++ model⟩

/-- `IntegrityError`. -/
def slugTaken : PyExc := ⟨.other, "UNIQUE constraint failed: webhooks_webhookreceiver.slug"⟩

def Endpoint.pairedTo (targetUrl : Str) (e : Endpoint) : Bool :=
  e.targetUrl = targetUrl && e.isPaired

def Receiver.pairedAt (slug : Str) (r : Receiver) : Bool := r.slug = slug && r.isPaired

/-- A receiver that was made by hand holds a slug. -/
def Db.handMade (db : Db) (slug : Str) : Bool :=
  db.receivers.rows.any fun r => r.slug = slug && !r.isPaired

/-- `WebhookReceiver.objects.create`. -/
def createReceiver (make : ℕ → Receiver) (hmake : ∀ n, (make n).pk = n) : Pair Receiver := fun db =>
  let receiver := make db.receivers.next
  if h : Table.get Receiver.slug db.receivers.rows receiver.slug = none then
    .ok receiver { db with receivers := db.receivers.insert make hmake, slugs := db.slugs.append h }
  else .error slugTaken db

/-- The outbound half: `get_or_create` and the update, with whether it has created. -/
def pairEndpoint (args : Args) (call : Call) : Pair (Endpoint × Bool) := fun db =>
  match db.endpoints.rows.filter (Endpoint.pairedTo args.targetUrl) with
  | [] =>
      .ok (args.newEndpoint call db.endpoints.next, true)
        { db with endpoints := db.endpoints.insert (args.newEndpoint call) (args.newEndpoint_pk call) }
  | [e] =>
      .ok (args.updateEndpoint call.endpointSaved e, false)
        { db with
          endpoints := db.endpoints.save e.pk (args.updateEndpoint call.endpointSaved)
            (args.updateEndpoint_pk call.endpointSaved) }
  | _ => .error (multiple "WebhookEndpoint") db

/-- The slug of the receiver; the default one makes room for a receiver that was made by hand. -/
def Args.receiverSlug (site : Site) (args : Args) (db : Db) : Str :=
  if args.slug = none ∧ db.handMade (args.baseSlug site) then args.baseSlug site ++ "-p".toList
  else args.baseSlug site

/-- The inbound half: `get_or_create` and the update. -/
def pairReceiver (site : Site) (args : Args) (call : Call) : Pair Receiver := fun db =>
  let slug := args.receiverSlug site db
  match db.receivers.rows.filter (Receiver.pairedAt slug) with
  | [] => createReceiver (args.newReceiver site call slug) (args.newReceiver_pk site call slug) db
  | [r] =>
      .ok (args.updateReceiver site call.receiverSaved r)
        { db with
          receivers := db.receivers.save r.pk (args.updateReceiver site call.receiverSaved)
            (args.updateReceiver_pk site call.receiverSaved)
          slugs := db.receivers.unique_save db.slugs
            (args.updateReceiver_slug site call.receiverSaved) }
  | _ => .error (multiple "WebhookReceiver") db

/-- A link in one direction has no inbound half. -/
def pairInbound (site : Site) (args : Args) (call : Call) : Pair (Option Receiver) :=
  if args.oneWay then pure none else some <$> pairReceiver site args call

/-! ## `pair_smallstack` -/

/-- `origin.startswith(("http://", "https://"))`. -/
def isWebOrigin (origin : Str) : Bool :=
  "http://".toList.isPrefixOf origin || "https://".toList.isPrefixOf origin

/-- The inbound URL that the peer is told. -/
def inboundAbsolute (origin inboundUrl : Str) : Str :=
  if isWebOrigin origin then (origin.reverse.dropWhile (· = '/')).reverse ++ inboundUrl
  else inboundUrl

def inboundUrlOf (slug : Str) : Str := "/webhooks/in/".toList ++ slug ++ "/".toList

/-- The command for the peer, with the secrets swapped. -/
def mirrorCommand (site : Site) (inbound recv send : Str) (events : List Str) : Str :=
  "sc webhook pair".toList ++ " --target ".toList ++ inbound ++ " --send-secret ".toList ++ recv ++
    " --recv-secret ".toList ++ send ++ " --events '".toList ++ site.jsonDumps events ++ "'".toList

def blockedWarning (targetUrl reason : Str) : Str :=
  "Deliveries to ".toList ++ targetUrl ++ " will be BLOCKED before they are sent: ".toList ++ reason

/-- What a call answers that has found or made these rows. -/
def answer (site : Site) (args : Args) (call : Call) (endpoint : Endpoint) (created : Bool)
    (receiver : Option Receiver) (refused : Option Str) : Paired :=
  let slug := (receiver.map Receiver.slug).getD (args.baseSlug site)
  let recv := (receiver.map Receiver.secret).getD (args.resolvedRecv.getD call.recvSecret)
  let inboundUrl := inboundUrlOf slug
  let inbound := inboundAbsolute site.currentOrigin inboundUrl
  { endpointId := endpoint.pk
    receiverId := receiver.map Receiver.pk
    receiverSlug := receiver.map Receiver.slug
    inboundUrl := receiver.map fun _ => inboundUrl
    inboundUrlAbsolute := receiver.map fun _ => inbound
    sendSecret := endpoint.secret
    recvSecret := recv
    origin := site.currentOrigin
    events := args.eventFilter
    oneWay := args.oneWay
    endpointCreated := created
    mirrorCommand := mirrorCommand site inbound recv endpoint.secret args.eventFilter
    warnings := (refused.map (blockedWarning args.targetUrl)).toList }

/-- `pair_smallstack`. -/
def pairSmallstack (site : Site) (args : Args) (call : Call) : Pair Paired := do
  let (endpoint, created) ← pairEndpoint args call
  let receiver ← pairInbound site args call
  match call.urlRefused args.targetUrl with
  | .error e => throw e
  | .ok refused => return answer site args call endpoint created receiver refused

end CwStation.Pairing
