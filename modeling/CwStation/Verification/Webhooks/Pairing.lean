import CwStation.Model.Pairing

/-! # Pairing: what is kept, what is left half done, and what a second call changes -/

namespace CwStation.Pairing

open Tasks (Time)
open Effects (endState outcome bind_of_ok bind_of_error endState_of_ok endState_of_error)

variable {site : Site} {args : Args} {call later : Call} {db d : Db} {e : Endpoint} {r : Receiver}
  {created : Bool} {inbound : Option Receiver} {x : PyExc}

/-! ## What is the same but for the times of saving -/

/-- An endpoint without the time of its last save. -/
def Endpoint.content (e : Endpoint) : Endpoint := { e with updatedAt := 0 }

/-- A receiver without the time of its last save. -/
def Receiver.content (r : Receiver) : Receiver := { r with updatedAt := 0 }

/-- The same rows with the same contents. -/
def SameRows (db d : Db) : Prop :=
  d.endpoints.rows.map Endpoint.content = db.endpoints.rows.map Endpoint.content ∧
    d.receivers.rows.map Receiver.content = db.receivers.rows.map Receiver.content

/-- The same endpoint and receiver with the same secrets. -/
structure SameLink (oneWay : Bool) (first second : Paired) : Prop where
  endpoint : second.endpointId = first.endpointId
  receiver : second.receiverId = first.receiverId
  slug : second.receiverSlug = first.receiverSlug
  send : second.sendSecret = first.sendSecret
  recv : oneWay = false → second.recvSecret = first.recvSecret

/-! ## The outbound half -/

/-- The endpoint of the pairing is there, as the call writes it. -/
def EndpointSettled (args : Args) (call : Call) (db : Db) : Prop :=
  ∃ e, db.endpoints.rows.filter (Endpoint.pairedTo args.targetUrl) = [e] ∧
    args.updateEndpoint call.endpointSaved e = e

/-- What the outbound half has done. -/
structure Outbound (args : Args) (call : Call) (db : Db) (e : Endpoint) (d : Db) : Prop where
  receivers : d.receivers = db.receivers
  adopted : Table.Numbered.Adopted (Endpoint.pairedTo args.targetUrl) (fun e => !e.isPaired)
    (args.updateEndpoint call.endpointSaved) db.endpoints e d.endpoints
  written : ∀ t, (args.updateEndpoint t e).content = e.content

theorem updateEndpoint_content (t : Time) :
    (args.updateEndpoint t (args.updateEndpoint call.endpointSaved e)).content =
      (args.updateEndpoint call.endpointSaved e).content := by
  cases h : args.resolvedSend <;> simp [Args.updateEndpoint, Endpoint.content, h]

theorem newEndpoint_content (t : Time) (pk : ℕ) :
    (args.updateEndpoint t (args.newEndpoint call pk)).content =
      (args.newEndpoint call pk).content := by
  cases h : args.resolvedSend <;>
    simp [Args.updateEndpoint, Args.newEndpoint, Endpoint.content, h]

theorem isPaired_of_pairedTo {targetUrl : Str} (e : Endpoint) (h : e.pairedTo targetUrl = true) :
    (!e.isPaired) = false := by
  simp only [Endpoint.pairedTo, Bool.and_eq_true] at h
  rw [h.2, Bool.not_true]

theorem pairEndpoint_ok (h : pairEndpoint args call db = .ok (e, created) d) :
    Outbound args call db e d := by
  unfold pairEndpoint at h
  split at h
  · rename_i hnone
    cases h
    have hpaired : (args.newEndpoint call db.endpoints.next).pairedTo args.targetUrl = true := by
      simp [Endpoint.pairedTo, Args.newEndpoint]
    exact ⟨rfl, Table.Numbered.adopted_insert (args.newEndpoint_pk call) hnone hpaired
      (isPaired_of_pairedTo _ hpaired), fun t => newEndpoint_content t _⟩
  · rename_i e₀ hone
    cases h
    have hpaired (e : Endpoint) : (args.updateEndpoint call.endpointSaved e).pairedTo args.targetUrl =
        e.pairedTo args.targetUrl := rfl
    have hkept (e : Endpoint) :
        (!(args.updateEndpoint call.endpointSaved e).isPaired) = !e.isPaired := rfl
    exact ⟨rfl, Table.Numbered.adopted_save (args.updateEndpoint_pk call.endpointSaved) hone hpaired
      hkept isPaired_of_pairedTo, updateEndpoint_content⟩
  · cases h

theorem pairEndpoint_error (h : pairEndpoint args call db = .error x d) : d = db := by
  unfold pairEndpoint at h
  split at h <;> cases h
  rfl

theorem pairEndpoint_error_iff : (∃ x d, pairEndpoint args call db = .error x d) ↔
    1 < (db.endpoints.rows.filter (Endpoint.pairedTo args.targetUrl)).length := by
  unfold pairEndpoint
  rcases db.endpoints.rows.filter (Endpoint.pairedTo args.targetUrl) with _ | ⟨e, _ | ⟨e', rest⟩⟩
  · simp
  · simp
  · simp

/-- A second call finds the endpoint and changes no more than its time. -/
theorem pairEndpoint_again (later : Call)
    (hfound : db.endpoints.rows.filter (Endpoint.pairedTo args.targetUrl) = [e])
    (hwritten : ∀ t, (args.updateEndpoint t e).content = e.content) :
    ∃ e' d, pairEndpoint args later db = .ok (e', false) d ∧ e'.content = e.content ∧
      SameRows db d ∧ d.receivers = db.receivers := by
  refine ⟨args.updateEndpoint later.endpointSaved e, { db with
      endpoints := db.endpoints.save e.pk (args.updateEndpoint later.endpointSaved)
        (args.updateEndpoint_pk _) }, ?_, hwritten _, ⟨?_, rfl⟩, rfl⟩
  · unfold pairEndpoint
    rw [hfound]
  · exact Table.Numbered.map_save (args.updateEndpoint_pk _)
      (Table.Numbered.mem_of_filter_eq hfound).1 (hwritten _)

/-! ## The inbound half -/

/-- The receiver of the pairing is there, as the call writes it. -/
def ReceiverSettled (site : Site) (args : Args) (call : Call) (db : Db) : Prop :=
  ∃ r, db.receivers.rows.filter (Receiver.pairedAt (args.receiverSlug site db)) = [r] ∧
    args.updateReceiver site call.receiverSaved r = r

theorem updateReceiver_content (t : Time) :
    (args.updateReceiver site t (args.updateReceiver site call.receiverSaved r)).content =
      (args.updateReceiver site call.receiverSaved r).content := by
  cases h : args.resolvedRecv <;> simp [Args.updateReceiver, Receiver.content, h]

theorem newReceiver_content (t : Time) (slug : Str) (pk : ℕ) :
    (args.updateReceiver site t (args.newReceiver site call slug pk)).content =
      (args.newReceiver site call slug pk).content := by
  cases h : args.resolvedRecv <;>
    simp [Args.updateReceiver, Args.newReceiver, Receiver.content, h]

theorem isPaired_of_pairedAt {slug : Str} (r : Receiver) (h : r.pairedAt slug = true) :
    (!r.isPaired) = false := by
  simp only [Receiver.pairedAt, Bool.and_eq_true] at h
  rw [h.2, Bool.not_true]

/-- Whether a slug is held by hand depends on the rows made by hand. -/
theorem handMade_of_kept (h : d.receivers.rows.filter (fun r => !r.isPaired) =
    db.receivers.rows.filter fun r => !r.isPaired) (slug : Str) : d.handMade slug = db.handMade slug := by
  have hfilter (rows : List Receiver) : (rows.any fun r => r.slug = slug && !r.isPaired) =
      (rows.filter fun r => !r.isPaired).any fun r => r.slug = slug := by
    rw [List.any_filter]
    simp only [Bool.and_comm]
  rw [Db.handMade, Db.handMade, hfilter, hfilter, h]

theorem receiverSlug_of_kept (h : d.receivers.rows.filter (fun r => !r.isPaired) =
    db.receivers.rows.filter fun r => !r.isPaired) : args.receiverSlug site d = args.receiverSlug site db := by
  rw [Args.receiverSlug, Args.receiverSlug, handMade_of_kept h]

/-- What the inbound half has done. -/
structure Inbound (site : Site) (args : Args) (call : Call) (db : Db) (r : Receiver) (d : Db) : Prop where
  endpoints : d.endpoints = db.endpoints
  adopted : Table.Numbered.Adopted (Receiver.pairedAt (args.receiverSlug site db))
    (fun r => !r.isPaired) (args.updateReceiver site call.receiverSaved) db.receivers r d.receivers
  written : ∀ t, (args.updateReceiver site t r).content = r.content

theorem createReceiver_cases (make : ℕ → Receiver) (hmake : ∀ n, (make n).pk = n) (db : Db) :
    (∃ h, createReceiver make hmake db = .ok (make db.receivers.next)
        { db with receivers := db.receivers.insert make hmake, slugs := h } ∧
        ∀ r ∈ db.receivers.rows, r.slug ≠ (make db.receivers.next).slug) ∨
      createReceiver make hmake db = .error slugTaken db ∧
        ∃ r ∈ db.receivers.rows, r.slug = (make db.receivers.next).slug := by
  unfold createReceiver
  by_cases h : Table.get Receiver.slug db.receivers.rows (make db.receivers.next).slug = none
  · exact .inl ⟨db.slugs.append h, dif_pos h, Table.get_eq_none_iff.mp h⟩
  · refine .inr ⟨dif_neg h, ?_⟩
    simpa [Table.get_eq_none_iff] using h

theorem pairReceiver_ok (h : pairReceiver site args call db = .ok r d) :
    Inbound site args call db r d := by
  unfold pairReceiver at h
  dsimp only at h
  split at h
  · rename_i hnone
    rcases createReceiver_cases (args.newReceiver site call (args.receiverSlug site db))
      (args.newReceiver_pk site call _) db with ⟨hslugs, hcreate, -⟩ | ⟨hcreate, -⟩
    · rw [hcreate] at h
      cases h
      have hpaired : (args.newReceiver site call (args.receiverSlug site db)
          db.receivers.next).pairedAt (args.receiverSlug site db) = true := by
        simp [Receiver.pairedAt, Args.newReceiver]
      exact ⟨rfl, Table.Numbered.adopted_insert (args.newReceiver_pk site call _) hnone hpaired
        (isPaired_of_pairedAt _ hpaired), fun t => newReceiver_content t _ _⟩
    · rw [hcreate] at h
      cases h
  · rename_i r₀ hone
    cases h
    have hpaired (r : Receiver) : (args.updateReceiver site call.receiverSaved r).pairedAt
        (args.receiverSlug site db) = r.pairedAt (args.receiverSlug site db) := rfl
    have hkept (r : Receiver) :
        (!(args.updateReceiver site call.receiverSaved r).isPaired) = !r.isPaired := rfl
    exact ⟨rfl, Table.Numbered.adopted_save (args.updateReceiver_pk site call.receiverSaved) hone
      hpaired hkept isPaired_of_pairedAt, updateReceiver_content⟩
  · cases h

theorem Db.handMade_iff {slug : Str} :
    db.handMade slug = true ↔ ∃ r ∈ db.receivers.rows, r.slug = slug ∧ r.isPaired = false := by
  simp [Db.handMade]

/-- The inbound half raises if and only if its slug is held by hand, and then it changes nothing. -/
theorem pairReceiver_cases (site : Site) (args : Args) (call : Call) (db : Db) :
    (∃ r d, pairReceiver site args call db = .ok r d ∧
        db.handMade (args.receiverSlug site db) = false) ∨
      ∃ x, pairReceiver site args call db = .error x db ∧
        db.handMade (args.receiverSlug site db) = true := by
  unfold pairReceiver
  dsimp only
  generalize hslug : args.receiverSlug site db = slug
  rcases hrows : db.receivers.rows.filter (Receiver.pairedAt slug) with _ | ⟨r, _ | ⟨r', rest⟩⟩
  · rcases createReceiver_cases (args.newReceiver site call slug) (args.newReceiver_pk site call slug)
      db with ⟨hslugs, hcreate, hfree⟩ | ⟨hcreate, r, hr, htaken⟩
    · refine .inl ⟨_, _, hcreate, ?_⟩
      rw [← Bool.not_eq_true, Db.handMade_iff]
      exact fun ⟨r, hr, heq, _⟩ => hfree r hr heq
    · refine .inr ⟨_, hcreate, Db.handMade_iff.mpr ⟨r, hr, htaken, ?_⟩⟩
      have hnone := List.filter_eq_nil_iff.mp hrows r hr
      simpa [Receiver.pairedAt, htaken, Args.newReceiver] using hnone
  · refine .inl ⟨_, _, rfl, ?_⟩
    obtain ⟨hr, hpaired⟩ := Table.Numbered.mem_of_filter_eq hrows
    simp only [Receiver.pairedAt, Bool.and_eq_true, decide_eq_true_eq] at hpaired
    rw [← Bool.not_eq_true, Db.handMade_iff]
    rintro ⟨r', hr', heq, hhand⟩
    rw [db.slugs.eq_of_key hr' hr (heq.trans hpaired.1.symm), hpaired.2] at hhand
    cases hhand
  · have hmem (x : Receiver) (hx : x ∈ r :: r' :: rest) : x ∈ db.receivers.rows ∧ x.slug = slug := by
      rw [← hrows] at hx
      obtain ⟨hx, hpaired⟩ := List.mem_filter.mp hx
      simp only [Receiver.pairedAt, Bool.and_eq_true, decide_eq_true_eq] at hpaired
      exact ⟨hx, hpaired.1⟩
    obtain ⟨hr, hrslug⟩ := hmem r List.mem_cons_self
    obtain ⟨hr', hrslug'⟩ := hmem r' (List.mem_cons_of_mem _ List.mem_cons_self)
    have hnodup : (db.receivers.rows.filter (Receiver.pairedAt slug)).Nodup :=
      (List.Nodup.of_map _ db.receivers.unique).filter _
    rw [hrows, db.slugs.eq_of_key hr hr' (hrslug.trans hrslug'.symm), List.nodup_cons] at hnodup
    exact absurd List.mem_cons_self hnodup.1

theorem pairReceiver_again (later : Call)
    (hfound : db.receivers.rows.filter (Receiver.pairedAt (args.receiverSlug site db)) = [r])
    (hwritten : ∀ t, (args.updateReceiver site t r).content = r.content) :
    ∃ r' d, pairReceiver site args later db = .ok r' d ∧ r'.content = r.content ∧
      SameRows db d := by
  refine ⟨args.updateReceiver site later.receiverSaved r, { db with
      receivers := db.receivers.save r.pk (args.updateReceiver site later.receiverSaved)
        (args.updateReceiver_pk site _)
      slugs := db.receivers.unique_save db.slugs (args.updateReceiver_slug site _) }, ?_, hwritten _,
    rfl, ?_⟩
  · unfold pairReceiver
    dsimp only
    rw [hfound]
  · exact Table.Numbered.map_save (args.updateReceiver_pk site _)
      (Table.Numbered.mem_of_filter_eq hfound).1 (hwritten _)

/-- There is an inbound half, and its slug is held by hand. -/
def Blocked (site : Site) (args : Args) (db : Db) : Prop :=
  args.oneWay = false ∧ db.handMade (args.receiverSlug site db) = true

theorem pairInbound_cases (site : Site) (args : Args) (call : Call) (db : Db) :
    (∃ inbound d, pairInbound site args call db = .ok inbound d ∧ ¬ Blocked site args db) ∨
      ∃ x, pairInbound site args call db = .error x db ∧ Blocked site args db := by
  unfold pairInbound Blocked
  by_cases hway : args.oneWay = true
  · rw [if_pos hway, hway]
    exact .inl ⟨none, db, rfl, by simp⟩
  · rw [if_neg hway, Bool.not_eq_true] at *
    rcases pairReceiver_cases site args call db with
      ⟨r, d, hpair, hfree⟩ | ⟨x, hpair, htaken⟩
    · refine .inl ⟨some r, d, ?_, by simp [hfree]⟩
      simp only [Functor.map, EStateM.map, hpair]
    · refine .inr ⟨x, ?_, hway, htaken⟩
      simp only [Functor.map, EStateM.map, hpair]

theorem pairInbound_ok (h : pairInbound site args call db = .ok inbound d) :
    args.oneWay = true ∧ inbound = none ∧ d = db ∨
      args.oneWay = false ∧ ∃ r, inbound = some r ∧ Inbound site args call db r d := by
  unfold pairInbound at h
  by_cases hway : args.oneWay = true
  · rw [if_pos hway] at h
    cases h
    exact .inl ⟨hway, rfl, rfl⟩
  · rw [if_neg hway] at h
    refine .inr ⟨by simpa using hway, ?_⟩
    cases hpair : pairReceiver site args call db with
    | ok r d' =>
      simp only [Functor.map, EStateM.map, hpair] at h
      cases h
      exact ⟨r, rfl, pairReceiver_ok hpair⟩
    | error x d' =>
      simp only [Functor.map, EStateM.map, hpair] at h
      cases h

theorem pairInbound_kept (h : pairInbound site args call db = .ok inbound d) :
    d.endpoints = db.endpoints ∧ d.receivers.rows.filter (fun r => !r.isPaired) =
      db.receivers.rows.filter fun r => !r.isPaired := by
  rcases pairInbound_ok h with ⟨-, -, rfl⟩ | ⟨-, r, -, hr⟩
  · exact ⟨rfl, rfl⟩
  · exact ⟨hr.endpoints, hr.adopted.kept⟩

/-- A second call finds the receiver and changes no more than its time. -/
theorem pairInbound_again (later : Call) (h : pairInbound site args call db = .ok inbound d)
    {d' : Db} (hd : d'.receivers = d.receivers) :
    ∃ again d'', pairInbound site args later d' = .ok again d'' ∧
      again.map Receiver.content = inbound.map Receiver.content ∧ SameRows d' d'' := by
  unfold pairInbound
  rcases pairInbound_ok h with ⟨hway, rfl, rfl⟩ | ⟨hway, r, rfl, hr⟩
  · rw [if_pos hway]
    exact ⟨none, d', rfl, rfl, rfl, rfl⟩
  · have hslug : args.receiverSlug site d' = args.receiverSlug site db :=
      receiverSlug_of_kept (by rw [hd, hr.adopted.kept])
    have hfound := hr.adopted.found
    rw [← hd, ← hslug] at hfound
    obtain ⟨r', d'', hpair, hcontent, hrows⟩ := pairReceiver_again later hfound hr.written
    refine ⟨some r', d'', ?_, congrArg some hcontent, hrows⟩
    rw [hway, if_neg Bool.false_ne_true]
    simp only [Functor.map, EStateM.map, hpair]

theorem pairInbound_settled (h : pairInbound site args call db = .ok inbound d) :
    d = db ↔ args.oneWay = true ∨ ReceiverSettled site args call db := by
  rcases pairInbound_ok h with ⟨hway, -, rfl⟩ | ⟨hway, r, -, hr⟩
  · simp [hway]
  · rw [hway, ReceiverSettled, ← hr.adopted.settled]
    simp only [Bool.false_eq_true, false_or]
    exact ⟨congrArg Db.receivers, fun heq => Db.ext hr.endpoints heq⟩

/-! ## The whole call -/

theorem pairSmallstack_of_endpoint_error (h : pairEndpoint args call db = .error x d) :
    pairSmallstack site args call db = .error x d := bind_of_error h

theorem pairSmallstack_of_inbound_error (h : pairEndpoint args call db = .ok (e, created) d) {d' : Db}
    (h' : pairInbound site args call d = .error x d') :
    pairSmallstack site args call db = .error x d' := by
  rw [pairSmallstack, bind_of_ok h]
  exact bind_of_error h'

/-- Once both halves are done, the guard decides what the call returns, and not what it leaves. -/
theorem pairSmallstack_of_ok (h : pairEndpoint args call db = .ok (e, created) d) {d' : Db}
    (h' : pairInbound site args call d = .ok inbound d') :
    endState (pairSmallstack site args call) db = d' ∧
      outcome (pairSmallstack site args call) db =
        (call.urlRefused args.targetUrl).map (answer site args call e created inbound) := by
  cases hurl : call.urlRefused args.targetUrl with
  | error x =>
    have hrun : pairSmallstack site args call db = .error x d' := by
      rw [pairSmallstack, bind_of_ok h]
      refine (bind_of_ok h').trans ?_
      rw [hurl]
      rfl
    rw [endState, outcome, hrun]
    exact ⟨rfl, rfl⟩
  | ok refused =>
    have hrun : pairSmallstack site args call db =
        .ok (answer site args call e created inbound refused) d' := by
      rw [pairSmallstack, bind_of_ok h]
      refine (bind_of_ok h').trans ?_
      rw [hurl]
      rfl
    rw [endState, outcome, hrun]
    exact ⟨rfl, rfl⟩

/-- Nothing of a call that raises is left: there are several endpoints to choose from, or nothing
raises, or what is written before the exception is there already. -/
def Whole (site : Site) (args : Args) (call : Call) (db : Db) : Prop :=
  1 < (db.endpoints.rows.filter (Endpoint.pairedTo args.targetUrl)).length ∨
    (¬ Blocked site args db ∧ ∃ refused, call.urlRefused args.targetUrl = .ok refused) ∨
    (EndpointSettled args call db ∧
      (Blocked site args db ∨ args.oneWay = true ∨ ReceiverSettled site args call db))

/-- Pairing keeps the rows that were made by hand, is done wholly or not at all, and a second call
gives the same link. -/
structure PairsCleanly (site : Site) (args : Args) (call : Call) (db : Db) : Prop where
  endpoints : (endState (pairSmallstack site args call) db).endpoints.rows.filter
    (fun e => !e.isPaired) = db.endpoints.rows.filter fun e => !e.isPaired
  receivers : (endState (pairSmallstack site args call) db).receivers.rows.filter
    (fun r => !r.isPaired) = db.receivers.rows.filter fun r => !r.isPaired
  whole : ∀ x, outcome (pairSmallstack site args call) db = .error x →
    endState (pairSmallstack site args call) db = db
  rows : ∀ later, SameRows (endState (pairSmallstack site args call) db)
    (endState (pairSmallstack site args later) (endState (pairSmallstack site args call) db))
  links : ∀ later first, outcome (pairSmallstack site args call) db = .ok first →
    ∀ refused, later.urlRefused args.targetUrl = .ok refused → ∃ second,
      outcome (pairSmallstack site args later) (endState (pairSmallstack site args call) db) =
        .ok second ∧ SameLink args.oneWay first second

theorem blocked_congr (h : d.receivers = db.receivers) : Blocked site args d ↔ Blocked site args db := by
  have hkept := congrArg (fun t => t.rows.filter fun r : Receiver => !r.isPaired) h
  rw [Blocked, Blocked, receiverSlug_of_kept hkept, handMade_of_kept hkept]

theorem receiverSettled_congr (h : d.receivers = db.receivers) :
    ReceiverSettled site args call d ↔ ReceiverSettled site args call db := by
  have hkept := congrArg (fun t => t.rows.filter fun r : Receiver => !r.isPaired) h
  rw [ReceiverSettled, ReceiverSettled, receiverSlug_of_kept hkept, h]

/-- How a call goes: it cannot choose an endpoint, or its slug is held by hand, or both halves are
done. -/
theorem fates (site : Site) (args : Args) (call : Call) (db : Db) :
    (1 < (db.endpoints.rows.filter (Endpoint.pairedTo args.targetUrl)).length ∧
      ∃ x, pairSmallstack site args call db = .error x db) ∨
    (∃ e created d x, pairEndpoint args call db = .ok (e, created) d ∧ Blocked site args db ∧
      pairSmallstack site args call db = .error x d) ∨
    ∃ e created d inbound d', pairEndpoint args call db = .ok (e, created) d ∧
      pairInbound site args call d = .ok inbound d' ∧ ¬ Blocked site args db := by
  cases h : pairEndpoint args call db with
  | error x d =>
    obtain rfl := pairEndpoint_error h
    exact .inl ⟨pairEndpoint_error_iff.mp ⟨x, d, h⟩, x, pairSmallstack_of_endpoint_error h⟩
  | ok row d =>
    obtain ⟨e, created⟩ := row
    have hsame : Blocked site args d ↔ Blocked site args db :=
      blocked_congr (pairEndpoint_ok h).receivers
    rcases pairInbound_cases site args call d with ⟨inbound, d', h', hfree⟩ | ⟨x, h', hblocked⟩
    · exact .inr (.inr ⟨e, created, d, inbound, d', rfl, h', fun hb => hfree (hsame.mpr hb)⟩)
    · exact .inr (.inl ⟨e, created, d, x, rfl, hsame.mp hblocked,
        pairSmallstack_of_inbound_error h h'⟩)

theorem one_of_ok (h : pairEndpoint args call db = .ok (e, created) d) :
    ¬ 1 < (db.endpoints.rows.filter (Endpoint.pairedTo args.targetUrl)).length := by
  intro hmany
  obtain ⟨x, d', h'⟩ := pairEndpoint_error_iff.mpr hmany
  rw [h] at h'
  cases h'

/-- A call is done wholly or not at all. -/
theorem whole_iff : (∀ x, outcome (pairSmallstack site args call) db = .error x →
    endState (pairSmallstack site args call) db = db) ↔ Whole site args call db := by
  unfold Whole
  rcases fates site args call db with ⟨hmany, x, hrun⟩ | ⟨e, created, d, x, h, hblocked, hrun⟩ |
    ⟨e, created, d, inbound, d', h, h', hfree⟩
  · rw [endState_of_error hrun]
    simp [hmany]
  · have hout := pairEndpoint_ok h
    have hsettled : d = db ↔ EndpointSettled args call db :=
      Iff.trans ⟨congrArg Db.endpoints, fun heq => Db.ext heq hout.receivers⟩ hout.adopted.settled
    rw [endState_of_error hrun, outcome, hrun, hsettled]
    simp [one_of_ok h, hblocked]
  · have hout := pairEndpoint_ok h
    have hin := pairInbound_settled h'
    have hsettled : d' = db ↔ EndpointSettled args call db ∧
        (args.oneWay = true ∨ ReceiverSettled site args call db) := by
      rw [← receiverSettled_congr hout.receivers, ← hin, EndpointSettled, ← hout.adopted.settled]
      constructor
      · rintro rfl
        have hd : d.endpoints = d'.endpoints := (pairInbound_kept h').1.symm
        exact ⟨hd, (Db.ext hd hout.receivers).symm⟩
      · rintro ⟨hd, rfl⟩
        exact Db.ext hd hout.receivers
    obtain ⟨hend, hreturn⟩ := pairSmallstack_of_ok h h'
    rw [hend, hreturn, hsettled]
    cases call.urlRefused args.targetUrl <;> simp [Except.map, one_of_ok h, hfree]

/-- Rows that were made by hand stay, whatever the call comes to. -/
theorem handMade_kept (site : Site) (args : Args) (call : Call) (db : Db) :
    (endState (pairSmallstack site args call) db).endpoints.rows.filter (fun e => !e.isPaired) =
        db.endpoints.rows.filter (fun e => !e.isPaired) ∧
      (endState (pairSmallstack site args call) db).receivers.rows.filter (fun r => !r.isPaired) =
        db.receivers.rows.filter fun r => !r.isPaired := by
  rcases fates site args call db with ⟨-, x, hrun⟩ | ⟨e, created, d, x, h, -, hrun⟩ |
    ⟨e, created, d, inbound, d', h, h', -⟩
  · rw [endState_of_error hrun]
    exact ⟨rfl, rfl⟩
  · have hout := pairEndpoint_ok h
    rw [endState_of_error hrun]
    exact ⟨hout.adopted.kept, by rw [hout.receivers]⟩
  · have hout := pairEndpoint_ok h
    obtain ⟨hendpoints, hreceivers⟩ := pairInbound_kept h'
    rw [(pairSmallstack_of_ok h h').1, hendpoints, hreceivers, hout.receivers]
    exact ⟨hout.adopted.kept, rfl⟩

theorem SameRows.trans {d' : Db} (h : SameRows db d) (h' : SameRows d d') : SameRows db d' :=
  ⟨h'.1.trans h.1, h'.2.trans h.2⟩

/-- The link of two calls that have found the same contents. -/
theorem sameLink {e e' : Endpoint} {again : Option Receiver} {created' : Bool}
    {refused refused' : Option Str} (he : e'.content = e.content)
    (hr : again.map Receiver.content = inbound.map Receiver.content)
    (hinbound : args.oneWay = false → inbound.isSome = true) :
    SameLink args.oneWay (answer site args call e created inbound refused)
      (answer site args later e' created' again refused') := by
  have hmap {α : Type} (f : Receiver → α) (hf : ∀ r, f r.content = f r) :
      again.map f = inbound.map f := by
    have h := congrArg (Option.map f) hr
    simpa only [Option.map_map, Function.comp_def, hf] using h
  have hpk := hmap Receiver.pk fun _ => rfl
  have hslug := hmap Receiver.slug fun _ => rfl
  have hsecret := hmap Receiver.secret fun _ => rfl
  refine ⟨(congrArg Endpoint.pk he :), hpk, hslug, (congrArg Endpoint.secret he :), fun hway => ?_⟩
  obtain ⟨r, hsome⟩ := Option.isSome_iff_exists.mp (hinbound hway)
  simp only [answer, hsecret]
  rw [hsome]
  rfl

theorem call_again (site : Site) (args : Args) (call later : Call) (db : Db) :
    SameRows (endState (pairSmallstack site args call) db)
        (endState (pairSmallstack site args later) (endState (pairSmallstack site args call) db)) ∧
      ∀ first, outcome (pairSmallstack site args call) db = .ok first →
        ∀ refused, later.urlRefused args.targetUrl = .ok refused → ∃ second,
          outcome (pairSmallstack site args later) (endState (pairSmallstack site args call) db) =
            .ok second ∧ SameLink args.oneWay first second := by
  rcases fates site args call db with ⟨hmany, x, hrun⟩ | ⟨e, created, d, x, h, hblocked, hrun⟩ |
    ⟨e, created, d, inbound, d', h, h', -⟩
  · obtain ⟨y, d, h⟩ : ∃ y d, pairEndpoint args later db = .error y d :=
      pairEndpoint_error_iff.mpr hmany
    obtain rfl := pairEndpoint_error h
    rw [endState_of_error hrun, endState_of_error (pairSmallstack_of_endpoint_error h), outcome, hrun]
    exact ⟨⟨rfl, rfl⟩, fun first hfirst => by cases hfirst⟩
  · have hout := pairEndpoint_ok h
    obtain ⟨e', d₁, h₁, -, hrows, hreceivers⟩ := pairEndpoint_again later hout.adopted.found hout.written
    have hblocked' : Blocked site args d₁ :=
      (blocked_congr (hreceivers.trans hout.receivers)).mpr hblocked
    rw [endState_of_error hrun, outcome, hrun]
    refine ⟨?_, fun first hfirst => by cases hfirst⟩
    rcases pairInbound_cases site args later d₁ with ⟨inbound, d', -, hfree⟩ | ⟨y, h', -⟩
    · exact absurd hblocked' hfree
    · rw [endState_of_error (pairSmallstack_of_inbound_error h₁ h')]
      exact hrows
  · have hout := pairEndpoint_ok h
    obtain ⟨hend, hreturn⟩ := pairSmallstack_of_ok h h'
    have hfound := hout.adopted.found
    rw [← (pairInbound_kept h').1] at hfound
    obtain ⟨e', d₁, h₁, he, hrows, hreceivers⟩ := pairEndpoint_again later hfound hout.written
    obtain ⟨again, d₂, h₂, hr, hrows'⟩ := pairInbound_again later h' hreceivers
    obtain ⟨hend', hreturn'⟩ := pairSmallstack_of_ok h₁ h₂
    rw [hend, hend', hreturn, hreturn']
    refine ⟨hrows.trans hrows', fun first hfirst refused' hrefused' => ?_⟩
    rw [hrefused']
    refine ⟨_, rfl, ?_⟩
    cases hrefused : call.urlRefused args.targetUrl with
    | error x =>
      rw [hrefused] at hfirst
      cases hfirst
    | ok refused =>
      rw [hrefused] at hfirst
      cases hfirst
      refine sameLink he hr fun hway => ?_
      rcases pairInbound_ok h' with ⟨hway', -⟩ | ⟨-, r, rfl, -⟩
      · rw [hway] at hway'
        cases hway'
      · rfl

/-- Pairing is clean if and only if it leaves nothing half done; the other parts hold always. -/
theorem pairsCleanly_iff : PairsCleanly site args call db ↔ Whole site args call db := by
  rw [← whole_iff]
  refine ⟨PairsCleanly.whole, fun hwhole => ?_⟩
  obtain ⟨hendpoints, hreceivers⟩ := handMade_kept site args call db
  exact ⟨hendpoints, hreceivers, hwhole, fun later => (call_again site args call later db).1,
    fun later => (call_again site args call later db).2⟩

/-- A station whose guard refuses nothing. -/
def plainSite : Site where
  sha256Hex _ := "0123456789abcdef".toList
  jsonDumps _ := "[\"*\"]".toList
  currentOrigin := "https://a.example.com".toList

def plainCall : Call where
  sendSecret := "send".toList
  recvSecret := "recv".toList
  endpointSaved := 1
  receiverSaved := 2
  urlRefused _ := .ok none

def peerArgs : Args where
  targetUrl := "https://b.example.com/webhooks/in/x/".toList

/-- Receivers that were made by hand hold the default slug and the one beside it. -/
def crowded : Db where
  endpoints := { rows := [], next := 1, unique := List.nodup_nil, fresh := by simp }
  receivers :=
    { rows := [
        { pk := 1, name := "a".toList, slug := "paired-01234567".toList, secret := [], updatedAt := 0 },
        { pk := 2, name := "b".toList, slug := "paired-01234567-p".toList, secret := [], updatedAt := 0 }]
      next := 3
      unique := by unfold Table.Unique; decide
      fresh := by decide }
  slugs := by unfold Table.Unique; decide

/-- The receiver's slug is taken, and the endpoint stays without it. -/
theorem crowded_halfDone : ¬ PairsCleanly plainSite peerArgs plainCall crowded := by
  intro h
  have hraise : outcome (pairSmallstack plainSite peerArgs plainCall) crowded = .error slugTaken := rfl
  have hrows := congrArg (fun db : Db => db.endpoints.rows.length) (h.whole slugTaken hraise)
  exact absurd hrows (by decide)

end CwStation.Pairing
