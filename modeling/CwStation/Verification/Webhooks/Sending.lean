import CwStation.Model.Sending
import CwStation.Verification.Python.Strings

/-! # What a send passes on and what it records -/

namespace CwStation.Webhooks

open Tasks (Time seconds)

variable {cfg : Settings} {out : Outside} {dest : Destination} {d : WebhookDelivery} {s : Store}
  {sent recorded : Time} {elapsedMs pk : ℕ} {transformed : Transformed} {auth : AuthResult}

/-! ## Headers -/

/-- The headers that the engine computes: the delivery's own with the credentials over them. -/
def engineHeaders (out : Outside) (d : WebhookDelivery) (transformed : Transformed)
    (auth : AuthResult) : Headers :=
  (deliveryHeaders out transformed.contentType d).update auth.headers.items

/-- The names whose values no static header may change. -/
def protectedNames (auth : AuthResult) : List Str :=
  [contentTypeHeader, eventHeader, deliveryHeader, eventIdHeader, originHeader] ++ auth.headers.keys

/-- The request carries for each of these names what the engine has computed, be it nothing. -/
def Unforged (out : Outside) (dest : Destination) (d : WebhookDelivery) (transformed : Transformed)
    (auth : AuthResult) : Prop :=
  ∀ name ∈ protectedNames auth,
    (buildRequest out dest d transformed auth).headers.get (out.capitalize name) =
      (capitalized out (engineHeaders out d transformed auth)).get (out.capitalize name)

/-- What the static headers say for a name that they spell as the engine does not. -/
def respelled (out : Outside) (dest : Destination) (headers : Headers) (name : Str) : Option Str :=
  Dict.last (out.capitalize name)
    ((headers.missing dest.headers.items).map fun x => (out.capitalize x.1, x.2))

theorem get_capitalized {headers : Headers} {name : Str} : (capitalized out headers).get name =
    Dict.last name (headers.items.map fun x => (out.capitalize x.1, x.2)) := by
  rw [capitalized, Dict.get_update, Dict.get_empty, Option.or_none]

/-- What a static header says under another spelling goes before the engine's value. -/
theorem get_buildRequest {name : Str} :
    (buildRequest out dest d transformed auth).headers.get (out.capitalize name) =
      (respelled out dest (engineHeaders out d transformed auth) name).or
        ((capitalized out (engineHeaders out d transformed auth)).get (out.capitalize name)) := by
  rw [buildRequest, ← engineHeaders, get_capitalized, get_capitalized,
    Dict.items_fill dest.headers.unique, List.map_append, Dict.last_append]
  rfl

/-- Static headers forge nothing if and only if those that spell one of the names as the engine does
not have the engine's value. -/
theorem unforged_iff : Unforged out dest d transformed auth ↔
    ∀ name ∈ protectedNames auth, ∀ value,
      respelled out dest (engineHeaders out d transformed auth) name = some value →
        (capitalized out (engineHeaders out d transformed auth)).get (out.capitalize name) =
          some value := by
  unfold Unforged
  refine forall₂_congr fun name _ => ?_
  rw [get_buildRequest]
  cases respelled out dest (engineHeaders out d transformed auth) name with
  | none => simp
  | some value =>
      rw [Option.some_or]
      exact ⟨fun h v hv => Option.some.inj hv ▸ h.symm, fun h => (h value rfl).symm⟩

/-- `str.capitalize` of an ASCII text. -/
def asciiCapitalize : Str → Str
  | [] => []
  | c :: s => c.toUpper :: s.map Char.toLower

/-- A site with the hooks of the repository and a peer that always answers alike. -/
def plainSite (u : Unicode) (signature : Str) (exchange : Exchange) : Outside where
  unicode := u
  capitalize := asciiCapitalize
  parsedate _ := .error ⟨.valueError, "Invalid date value or format"⟩
  wholeSeconds delta := delta.tdiv (seconds 1)
  transform payload := .ok { body := payload.map fun c => UInt8.ofNat c.toNat }
  auth request dest := .ok (defaultAuth (fun _ _ => signature) request dest)
  addParams url _ := url
  urlRefused _ := .ok none
  currentOrigin := "https://station.example".toList
  peer _ := exchange

def pingDelivery : WebhookDelivery where
  pk := 1
  endpoint := 1
  eventType := "ping".toList
  payload := "\x7b\x7d".toList
  eventId := none
  maxAttempts := 5

def forgingDestination : Destination where
  targetUrl := "https://peer.example/hook".toList
  secret := "key".toList
  headers := Dict.empty.set "x-smallstack-signature".toList "sha256=forged".toList

/-- A static header in lower case goes out in the signature's place. -/
theorem signature_forged : ¬ Unforged (plainSite Unicode.ascii "sha256=true".toList (.answered 200 none))
    forgingDestination pingDelivery { body := [] }
    { headers := Dict.empty.set signatureHeader "sha256=true".toList } := by
  intro h
  exact absurd (h signatureHeader (by decide)) (by decide)

/-! ## `Retry-After` -/

/-- A header that is absent, or that is stripped to decimal digits of which there are not too many,
or to what is no text of digits and what the date parser reads or refuses with a `ValueError`. -/
def Harmless (out : Outside) (value : Option Str) : Prop :=
  value.getD [] ≠ [] →
    let text := strip (value.getD [])
    if isDigits out.unicode text then
      (∀ c ∈ text, (out.unicode.decimal c).isSome) ∧ text.length ≤ maxStrDigits
    else ∀ e, out.parsedate text = .error e → e.cls = .valueError

theorem parseRetryAfter_ok_iff {now : Time} {value : Option Str} :
    (∃ r, parseRetryAfter out now value = .ok r) ↔ Harmless out value := by
  unfold parseRetryAfter Harmless
  cases value.getD [] with
  | nil => simp
  | cons c rest =>
    simp only [ne_eq, reduceCtorEq, not_false_eq_true, forall_const]
    generalize htext : strip (c :: rest) = text
    by_cases hdigits : isDigits out.unicode text = true
    · rw [if_pos hdigits, if_pos hdigits]
      have hstrip : strip text = text := by rw [← htext, strip_strip]
      simp only [isDigits, ne_eq, decide_not, Bool.and_eq_true, Bool.not_eq_true',
        decide_eq_false_iff_not, List.all_eq_true] at hdigits
      rw [← pyInt_of_isDigit out.unicode hdigits.2 hdigits.1 hstrip]
      cases pyInt out.unicode text <;> simp [Except.map]
    · rw [if_neg hdigits, if_neg hdigits]
      cases out.parsedate text with
      | error e => by_cases he : e.cls = .valueError <;> simp [he]
      | ok date => simp

/-- What a clamped wait comes to. -/
theorem clampBackoff_bounds (cfg : Settings) (wait : ℤ) :
    0 ≤ clampBackoff cfg wait ∧ (0 ≤ cfg.maxBackoff → clampBackoff cfg wait ≤ cfg.maxBackoff) := by
  unfold clampBackoff
  omega

/-! ## Every attempt is recorded -/

/-- The peer has answered with a status between 200 and 299. -/
def Exchange.Accepted (exchange : Exchange) : Prop :=
  ∃ code retryAfter, exchange = .answered code retryAfter ∧ 200 ≤ code ∧ code < 300

/-- The seconds that the header of a 429 or 503 asks to wait. -/
def Exchange.Asks (out : Outside) (sent : Time) (exchange : Exchange) (wait : ℤ) : Prop :=
  ∃ code retryAfter, exchange = .answered code retryAfter ∧ (code = 429 ∨ code = 503) ∧
    parseRetryAfter out sent retryAfter = .ok (some wait)

/-- The delivery after an attempt that comes to some exchange. -/
structure Recorded (cfg : Settings) (out : Outside) (sent recorded : Time) (exchange : Exchange)
    (d d' : WebhookDelivery) : Prop where
  attempt : d'.attempt = d.attempt + 1
  success : d'.status = .success ↔ exchange.Accepted
  dead : d'.status = .dead ↔ ¬ exchange.Accepted ∧ d'.maxAttempts ≤ d'.attempt
  retrying : d'.status = .retrying ↔ ¬ exchange.Accepted ∧ d'.attempt < d'.maxAttempts
  next : d'.status = .retrying → d'.nextAttemptAt.isSome
  asked : d'.status = .retrying → ∀ wait, exchange.Asks out sent wait → ∀ next ∈ d'.nextAttemptAt,
    recorded ≤ next ∧ (0 ≤ cfg.maxBackoff → next ≤ recorded + seconds cfg.maxBackoff)

/-- `deliver_webhook` returns, and it has recorded the attempt. -/
def Records (cfg : Settings) (out : Outside) (dest : Destination) (sent recorded : Time)
    (elapsedMs pk : ℕ) (s : Store) (d : WebhookDelivery) : Prop :=
  ∃ ex s' d', exchange out dest d = .ok ex ∧
    s.deliverWebhook cfg out dest sent recorded elapsedMs pk = .ok s' ∧
    s'.delivery pk = some d' ∧ Recorded cfg out sent recorded ex d d'

/-- A response without a `Retry-After` that counts, or with a harmless one. -/
def Exchange.Readable (out : Outside) (exchange : Exchange) : Prop :=
  ∀ code retryAfter, exchange = .answered code retryAfter → code = 429 ∨ code = 503 →
    Harmless out retryAfter

theorem response_ok_iff {ex : Exchange} :
    (∃ response, ex.response out sent = .ok response) ↔ ex.Readable out := by
  unfold Exchange.Readable
  cases ex with
  | blocked reason => simp [Exchange.response]
  | failed text => simp [Exchange.response]
  | answered code retryAfter =>
    rw [Exchange.response]
    by_cases hcode : code = 429 ∨ code = 503
    · have hiff : (∃ r, parseRetryAfter out sent retryAfter = .ok r) ↔ Harmless out retryAfter :=
        parseRetryAfter_ok_iff
      rw [if_pos hcode]
      constructor
      · rintro ⟨response, hresponse⟩ code' retryAfter' heq _
        obtain ⟨rfl, rfl⟩ := Exchange.answered.inj heq
        refine hiff.mp ?_
        cases hparse : parseRetryAfter out sent retryAfter with
        | error e =>
          rw [hparse] at hresponse
          cases hresponse
        | ok r => exact ⟨r, rfl⟩
      · intro h
        obtain ⟨r, hr⟩ := hiff.mpr (h code retryAfter rfl hcode)
        exact ⟨.status code r, by rw [hr]; rfl⟩
    · rw [if_neg hcode]
      refine ⟨fun _ code' retryAfter' heq hcode' => ?_, fun _ => ⟨_, rfl⟩⟩
      exact absurd ((Exchange.answered.inj heq).1 ▸ hcode') hcode

theorem succeeded_iff {ex : Exchange} {response : Response} (h : ex.response out sent = .ok response) :
    response.succeeded = true ↔ ex.Accepted := by
  unfold Exchange.Accepted
  cases ex with
  | blocked reason =>
    cases h
    simp [Response.succeeded, Response.code]
  | failed text =>
    cases h
    simp [Response.succeeded, Response.code]
  | answered code retryAfter =>
    have hcode : response.code = some code := by
      rw [Exchange.response] at h
      split_ifs at h
      · cases hparse : parseRetryAfter out sent retryAfter <;> rw [hparse] at h <;> cases h
        rfl
      · cases h
        rfl
    simp [Response.succeeded, hcode]

theorem retryAfter_of_asks {ex : Exchange} {response : Response}
    (h : ex.response out sent = .ok response) {wait : ℤ} (hasks : ex.Asks out sent wait) :
    response.retryAfter = some wait := by
  obtain ⟨code, retryAfter, rfl, hcode, hparse⟩ := hasks
  rw [Exchange.response, if_pos hcode, hparse] at h
  cases h
  rw [Response.retryAfter, if_pos hcode]

/-- What `_record_attempt` makes of a delivery. -/
theorem recorded_attempted {ex : Exchange} {response : Response}
    (h : ex.response out sent = .ok response) :
    Recorded cfg out sent recorded ex d
      (saveAttempt (attempted cfg response elapsedMs recorded d) d) := by
  have hsucceeded := succeeded_iff h
  by_cases haccepted : ex.Accepted
  · have hyes := hsucceeded.mpr haccepted
    constructor <;> simp [saveAttempt, attempted, hyes, haccepted]
  · have hno : response.succeeded = false := by simpa using fun hyes => haccepted (hsucceeded.mp hyes)
    by_cases hmax : d.maxAttempts ≤ d.attempt + 1
    · constructor <;> simp [saveAttempt, attempted, hno, haccepted, hmax]
    · have hasked (wait : ℤ) (hasks : ex.Asks out sent wait) (next : Time)
          (hmem : next ∈ (saveAttempt (attempted cfg response elapsedMs recorded d) d).nextAttemptAt) :
          recorded ≤ next ∧ (0 ≤ cfg.maxBackoff → next ≤ recorded + seconds cfg.maxBackoff) := by
        have hnext : (saveAttempt (attempted cfg response elapsedMs recorded d) d).nextAttemptAt =
            some (recorded + seconds (clampBackoff cfg wait)) := by
          simp [saveAttempt, attempted, hno, hmax, retryAfter_of_asks h hasks]
        rw [hnext, Option.mem_some_iff] at hmem
        obtain ⟨hlow, hhigh⟩ := clampBackoff_bounds cfg wait
        generalize clampBackoff cfg wait = clamped at *
        unfold Time seconds at *
        omega
      refine ⟨?_, ?_, ?_, ?_, ?_, fun _ => hasked⟩ <;>
        simp [saveAttempt, attempted, hno, haccepted, hmax]
      omega

/-- A send is recorded if and only if the hooks and the guard let it through and the peer's
`Retry-After` is harmless; and exactly the harmless ones are parsed. -/
theorem records_iff (hd : s.delivery pk = some d) (hopen : d.isTerminal = false) :
    (Records cfg out dest sent recorded elapsedMs pk s d ↔
        ∃ ex, exchange out dest d = .ok ex ∧ ex.Readable out) ∧
      ∀ now value, (∃ r, parseRetryAfter out now value = .ok r) ↔ Harmless out value := by
  refine ⟨?_, fun now value => parseRetryAfter_ok_iff⟩
  have hpk : d.pk = pk := Table.key_of_get hd
  constructor
  · rintro ⟨ex, s', d', hex, hsend, -, -⟩
    have hiff : (∃ response, ex.response out sent = .ok response) ↔ ex.Readable out :=
      response_ok_iff
    refine ⟨ex, hex, hiff.mp ?_⟩
    rw [Store.deliverWebhook, hd] at hsend
    simp only [hopen, Bool.false_eq_true, if_false, hex] at hsend
    cases hresponse : ex.response out sent with
    | ok response => exact ⟨response, rfl⟩
    | error e =>
        simp only [bind, Except.bind, hresponse] at hsend
        cases hsend
  · rintro ⟨ex, hex, hreadable⟩
    obtain ⟨response, hresponse⟩ : ∃ response, ex.response out sent = .ok response :=
      response_ok_iff.mpr hreadable
    refine ⟨ex, s.recordAttempt cfg response elapsedMs recorded d,
      saveAttempt (attempted cfg response elapsedMs recorded d) d, hex, ?_, ?_,
      recorded_attempted hresponse⟩
    · rw [Store.deliverWebhook, hd]
      simp only [hopen, Bool.false_eq_true, if_false, hex, bind, Except.bind, hresponse]
      rfl
    · have halter : (s.alterDelivery d.pk (saveAttempt
            (attempted cfg response elapsedMs recorded d))).delivery pk =
          if pk = d.pk then (s.delivery d.pk).map (saveAttempt
            (attempted cfg response elapsedMs recorded d)) else s.delivery pk :=
        Table.get_alter fun _ => rfl
      rw [if_pos hpk.symm, hpk, hd] at halter
      rw [← hpk] at halter ⊢
      exact halter

/-- The tables of a Python in which a superscript two is a digit, but not a decimal one. -/
def withSuperscript : Unicode where
  __ := Unicode.ascii
  isDigit c := c.isDigit || c = '²'
  isDigit_ascii c h := by
    have hne : c ≠ '²' := by
      rintro rfl
      exact absurd h (by decide)
    simp [hne]

def busySite (retryAfter : Str) : Outside :=
  plainSite withSuperscript "sha256=true".toList (.answered 429 (some retryAfter))

def pingStore : Store where
  deliveries := [pingDelivery]

/-- A peer that asks for two minutes is recorded. -/
theorem twoMinutes_recorded :
    Records { fnmatch := fun _ _ => true } (busySite "120".toList) forgingDestination 0 0 0 1 pingStore
      pingDelivery := by
  refine (records_iff rfl rfl).1.mpr ⟨_, rfl, fun code retryAfter heq _ => ?_⟩
  obtain ⟨rfl, rfl⟩ := Exchange.answered.inj heq
  have hparse : parseRetryAfter (busySite "120".toList) 0 (some "120".toList) = .ok (some 120) := rfl
  exact parseRetryAfter_ok_iff.mp ⟨_, hparse⟩

/-- A peer that asks for `²` seconds is not. -/
theorem superscript_unrecorded :
    ¬ Records { fnmatch := fun _ _ => true } (busySite "²".toList) forgingDestination 0 0 0 1 pingStore
      pingDelivery := by
  rintro ⟨ex, s', d', -, hsend, -, -⟩
  have hraise : pingStore.deliverWebhook { fnmatch := fun _ _ => true } (busySite "²".toList)
      forgingDestination 0 0 0 1 =
        .error ⟨.valueError, "invalid literal for int() with base 10"⟩ := rfl
  rw [hraise] at hsend
  cases hsend

end CwStation.Webhooks
