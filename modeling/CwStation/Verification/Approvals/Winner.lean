import CwStation.Verification.Approvals.Accounts

/-! # One winner, and what the others are told -/

namespace CwStation.Approvals

open Tasks (Time)
open Scripts

variable {ω α β : Type} {cfg : Settings ω} {pk : ℕ} {kind : Str}

/-! ### What a call returns that has not won -/

/-- The call is told that the request is no longer pending; or, where it has not reached the
claim, that it may not decide it. -/
def Refused (pk : ℕ) (t : List (Event Answer)) (res : Except ApprovalError ApprovalRequest) : Prop :=
  (∃ message, res = .error (.notPending message)) ∨
    t.countP (claims pk) = 0 ∧
      (res = .error .disabled ∨ ∃ message, res = .error (.notEligible message))

/-- A call that is refused unless it wins. -/
def Refuses (pk : ℕ) (kind : Str) (p : Call (Except ApprovalError ApprovalRequest)) : Prop :=
  p.Traces fun t r => Faithful pk kind t → t.countP (wins pk) = 0 →
    ∀ res, r = some res → Refused pk t res

/-- A script without a claim on the request. -/
def Clear (pk : ℕ) (p : Call α) : Prop :=
  p.Traces fun t _ => t.countP (claims pk) = 0 ∧ t.countP (wins pk) = 0

theorem clear_ret (a : α) : Clear pk (pure a) := ⟨rfl, rfl⟩

theorem clear_perform {op : Statement} {f : Answer op → Call β}
    (hop : ∀ a, claims pk ⟨op, a⟩ = false ∧ wins pk ⟨op, a⟩ = false) (hf : ∀ a, Clear pk (f a)) :
    Clear pk (perform op >>= f) := by
  refine Script.traces_perform_bind ⟨rfl, rfl⟩ fun a => (hf a).mono fun t r h => ?_
  simp [hop a, h]

theorem Clear.bind {p : Call α} {f : α → Call β} (hp : Clear pk p) (hf : ∀ a, Clear pk (f a)) :
    Clear pk (p >>= f) := by
  refine Script.Traces.bind hp (fun t h => h) fun t a h => (hf a).mono fun t' r h' => ?_
  simp [h, h']

theorem refuses_pending (message : Str) :
    Refuses pk kind (pure (.error (.notPending message))) := by
  intro _ _ res hres
  cases hres
  exact .inl ⟨message, rfl⟩

theorem refuses_disabled : Refuses pk kind (pure (.error .disabled)) := by
  intro _ _ res hres
  cases hres
  exact .inr ⟨rfl, .inl rfl⟩

theorem refuses_eligible (message : Str) :
    Refuses pk kind (pure (.error (.notEligible message))) := by
  intro _ _ res hres
  cases hres
  exact .inr ⟨rfl, .inr ⟨message, rfl⟩⟩

theorem Clear.refuses {p : Call α} {f : α → Call (Except ApprovalError ApprovalRequest)}
    (hp : Clear pk p) (hf : ∀ a, Refuses pk kind (f a)) : Refuses pk kind (p >>= f) := by
  refine Script.Traces.bind hp (fun t h _ _ res hres => by cases hres) fun t a h => ?_
  refine (hf a).mono fun t' r h' hfaithful hwins res hres => ?_
  rw [List.countP_append] at hwins
  obtain hpending | ⟨hclaims, hres'⟩ :=
    h' (faithful_append.mp hfaithful).2 (by omega) res hres
  · exact .inl hpending
  · refine .inr ⟨?_, hres'⟩
    rw [List.countP_append, h.1, hclaims]

/-- A claim on the request itself that hands an error on. -/
theorem refuses_claimPending {claim : Claim}
    {f : Except ApprovalError ApprovalRequest → Call (Except ApprovalError ApprovalRequest)}
    (hf : ∀ e, f (.error e) = pure (.error e)) :
    Refuses pk kind (claimPending pk claim >>= f) := by
  refine Script.traces_perform_bind (fun _ _ res hres => by cases hres) fun updated => ?_
  cases updated with
  | true =>
    refine Script.traces_of_forall _ fun t r _ hwins => ?_
    simp [wins] at hwins
  | false =>
    refine Script.traces_perform_bind (fun _ _ res hres => by cases hres) fun a => ?_
    cases a with
    | none =>
      refine Script.traces_of_forall _ fun t r hfaithful => ?_
      exact absurd rfl ((faithful_append (t := [_]).mp hfaithful.tail).1.load_none)
    | some req =>
      show (f (.error (.notPending (alreadyMessage req.status)))).Traces _
      rw [hf]
      intro _ _ res hres
      cases hres
      exact .inl ⟨_, rfl⟩

theorem refuses_settle (status : Status) (terminal : status ≠ .pending) (actor : Actor)
    (note source : Str) : Refuses pk kind (settle cfg pk status terminal actor note source) := by
  have hnow : Clear pk (perform .now) := ⟨⟨rfl, rfl⟩, fun _ => ⟨rfl, rfl⟩⟩
  refine hnow.refuses fun now => ?_
  exact refuses_claimPending fun e => rfl

theorem refuses_expireInstead : Refuses pk kind (expireInstead cfg pk) := by
  have hnow : Clear pk (perform .now) := ⟨⟨rfl, rfl⟩, fun _ => ⟨rfl, rfl⟩⟩
  refine hnow.refuses fun now => ?_
  exact refuses_claimPending fun e => rfl

theorem clear_isOverdue (req : ApprovalRequest) : Clear pk (isOverdue req) := by
  unfold isOverdue
  split
  · exact clear_perform (fun _ => ⟨rfl, rfl⟩) fun now => clear_ret _
  · exact clear_ret _

theorem clear_canDecide (user : Actor) (req : ApprovalRequest) :
    Clear pk (canDecide cfg user req) := by
  unfold canDecide
  cases user.actingPk with
  | none => exact clear_ret _
  | some k =>
    dsimp only
    split
    · exact clear_ret _
    split
    · exact clear_ret _
    have heligible : Clear pk (eligible cfg user k req) := by
      refine clear_perform (fun _ => ⟨rfl, rfl⟩) fun assignees => ?_
      split
      · exact clear_ret _
      · exact clear_perform (fun _ => ⟨rfl, rfl⟩) fun assignees => clear_ret _
    refine heligible.bind fun ok => ?_
    cases ok <;> exact clear_ret _

theorem refuses_decide (cfg : Settings ω) {req : ApprovalRequest} (hpk : req.pk = pk) (actor : Actor)
    (approved : Bool) (note source : Str) :
    Refuses pk kind (Approvals.decide cfg req actor approved note source) := by
  subst hpk
  unfold Approvals.decide
  split
  · exact refuses_disabled
  refine (clear_isOverdue req).refuses fun overdue => ?_
  split
  · exact refuses_expireInstead
  split
  · exact refuses_pending _
  refine (clear_canDecide actor req).refuses fun ok => ?_
  split
  · exact refuses_eligible _
  · exact refuses_settle _ _ actor note source

theorem refuses_cancel (cfg : Settings ω) {req : ApprovalRequest} (hpk : req.pk = pk) (actor : Actor)
    (note source : Str) : Refuses pk kind (cancel cfg req actor note source) := by
  subst hpk
  unfold cancel
  split
  · exact refuses_disabled
  split
  · exact refuses_eligible _
  · exact refuses_settle _ _ actor note source

/-- The rows that `mark_expired` counts are those whose claims it has won. -/
def Counted (t : List (Event Answer)) (r : Option (Except ApprovalError ℕ)) : Prop :=
  ∀ n, r = some (.ok n) → n = t.countP winsAny

/-- Finishing claims nothing. -/
theorem finish_claims_nothing (req : ApprovalRequest) (actor : Option ℕ) (source : Str) :
    (finish cfg req actor source).Traces fun t _ => t.countP winsAny = 0 := by
  have hpublish : ∀ copy : ApprovalRequest, Script.Traces (do
      perform (.save copy)
      perform (.log copy.pk actor source)
      perform (.signal copy.pk actor source)
      return (.ok copy : Except ApprovalError ApprovalRequest))
        fun t _ => t.countP winsAny = 0 :=
    fun copy => ⟨rfl, fun _ => ⟨rfl, fun _ => ⟨rfl, fun _ => rfl⟩⟩⟩
  unfold finish runCallback
  split
  · exact hpublish req
  · refine ⟨rfl, fun a => ?_⟩
    cases a with
    | none => exact hpublish req
    | some traceback =>
      refine ⟨rfl, fun _ => ⟨rfl, fun a => ?_⟩⟩
      cases a with
      | none => exact rfl
      | some req' => exact hpublish req'

theorem expireRow_counts (now : Time) (k : ℕ) :
    (expireRow cfg now k).Traces fun t r =>
      ∀ updated, r = some (.ok updated) → updated.toNat = t.countP winsAny := by
  refine Script.traces_perform_bind (fun _ h => by cases h) fun updated => ?_
  cases updated with
  | false =>
    intro updated h
    cases h
    rfl
  | true =>
    refine Script.traces_perform_bind (fun _ h => by cases h) fun a => ?_
    cases a with
    | none =>
      intro updated h
      cases h
    | some req =>
      refine Script.Traces.bind (finish_claims_nothing req none expiry)
        (fun t _ _ h => by cases h) fun t r ht => ?_
      cases r with
      | error e =>
        intro updated h
        cases h
      | ok req =>
        intro updated h
        cases h
        rw [List.append_nil, List.countP_cons_of_pos rfl,
          List.countP_cons_of_neg Bool.false_ne_true, ht]
        rfl

theorem expireRows_counts (now : Time) (pks : List ℕ) :
    (expireRows cfg now pks).Traces Counted := by
  induction pks with
  | nil =>
    intro n hn
    cases hn
    rfl
  | cons k pks ih =>
    refine Script.Traces.bind (expireRow_counts now k) (fun t _ _ h => by cases h) fun t r ht => ?_
    cases r with
    | error e =>
      intro n hn
      cases hn
    | ok updated =>
      refine Script.Traces.bind ih (fun t' _ _ h => by cases h) fun t' r ht' => ?_
      cases r with
      | error e =>
        intro n hn
        cases hn
      | ok expired =>
        intro n hn
        cases hn
        rw [List.append_nil, List.countP_append, ht updated rfl, ht' expired rfl]

theorem markExpired_counts (scope : ApprovalRequest → Bool) (limit : Option ℤ) :
    (markExpired cfg scope limit).Traces Counted := by
  refine Script.traces_perform_bind (fun _ h => by cases h) fun now => ?_
  refine Script.traces_perform_bind (fun _ h => by cases h) fun overdue => ?_
  have hrows : ∀ pks : List ℕ, (expireRows cfg now pks).Traces fun t r =>
      Counted (⟨.now, now⟩ :: ⟨.overdue now scope, overdue⟩ :: t) r := by
    intro pks
    exact (expireRows_counts now pks).mono fun t r h n hn => h n hn
  cases limit with
  | none => exact hrows overdue
  | some limit =>
    dsimp only
    split <;> exact hrows _

/-- What a call that has ended without winning returns. -/
def Lost (pk : ℕ) (t : List (Event Answer)) : Job → Returned → Prop
  | .decide k _ _ _ _, .request res | .cancel k _ _ _, .request res => k = pk → Refused pk t res
  | .markExpired _ _, .expired res => ∀ n, res = .ok n → n = t.countP winsAny
  | _, _ => True

theorem refuses_onRequest (kind : Str) {k : ℕ}
    {body : ApprovalRequest → Call (Except ApprovalError ApprovalRequest)}
    (hbody : ∀ req, req.pk = pk → Refuses pk kind (body req)) (hk : k = pk) :
    (onRequest k body).Traces fun t r => Faithful pk kind t → t.countP (wins pk) = 0 →
      ∀ res, r = some (.request res) → Refused pk t res := by
  subst hk
  refine Script.traces_perform_bind (fun _ _ res h => by cases h) fun a => ?_
  cases a with
  | none =>
    intro hfaithful
    exact absurd rfl hfaithful.load_none
  | some req =>
    by_cases hpk : req.pk = k
    · refine Script.Traces.bind (hbody req hpk) (fun t _ _ _ res h => by cases h) fun t res h => ?_
      intro hfaithful hwins res' hres
      cases hres
      rw [List.append_nil] at hfaithful hwins ⊢
      exact h hfaithful.tail hwins res rfl
    · refine Script.traces_of_forall _ fun t r hfaithful => ?_
      exact absurd (faithful_append (t := [_]).mp hfaithful).1.load.1 hpk

theorem lost_script (cfg : Settings ω) (job : Job) :
    (job.script cfg).Traces fun t r => Faithful pk kind t → t.countP (wins pk) = 0 →
      ∀ res, r = some res → Lost pk t job res := by
  cases job with
  | decide k actor approved note source =>
    by_cases hk : k = pk
    · have h := refuses_onRequest kind
        (fun req hreq => refuses_decide cfg hreq actor approved note source) hk
      refine h.mono fun t r h hfaithful hwins res hres => ?_
      cases res with
      | request res => exact fun _ => h hfaithful hwins res hres
      | expired _ | elapsed => trivial
    · refine Script.traces_of_forall _ fun t r _ _ res _ => ?_
      cases res with
      | request res => exact fun h => absurd h hk
      | expired _ | elapsed => trivial
  | cancel k actor note source =>
    by_cases hk : k = pk
    · have h := refuses_onRequest kind
        (fun req hreq => refuses_cancel cfg hreq actor note source) hk
      refine h.mono fun t r h hfaithful hwins res hres => ?_
      cases res with
      | request res => exact fun _ => h hfaithful hwins res hres
      | expired _ | elapsed => trivial
    · refine Script.traces_of_forall _ fun t r _ _ res _ => ?_
      cases res with
      | request res => exact fun h => absurd h hk
      | expired _ | elapsed => trivial
  | markExpired scope limit =>
    refine Script.Traces.bind (markExpired_counts scope limit) (fun t _ _ _ res h => by cases h)
      fun t res ht => ?_
    intro _ _ res' hres'
    cases hres'
    rw [List.append_nil]
    exact fun n hn => ht n (by rw [hn])
  | elapse d => exact Script.traces_of_forall _ fun t r _ _ res _ => by cases res <;> trivial

/-! ### One winner -/

/-- The events of one request tally with its row. -/
structure Tallied (pk : ℕ) (row₀ : ApprovalRequest) (history : List (ℕ × Event Answer))
    (s : Store ω) : Prop where
  row : ∃ row, s.request pk = some row ∧ row.kind = row₀.kind ∧
    (row.status = .pending → row.decision = row₀.decision ∧
      history.countP (fun e => claims pk e.2) = 0 ∧ history.countP (fun e => wins pk e.2) = 0) ∧
    (row.status ≠ .pending → history.countP (fun e => wins pk e.2) = 1)
  loads : Faithful pk row₀.kind (history.map (·.2))
  written : ∀ i claim, (i, ⟨.claim pk claim, true⟩) ∈ history →
    Decided pk (claim.apply row₀).decision s

theorem wins_of_claims {e : Event Answer} (h : claims pk e = false) : wins pk e = false := by
  obtain ⟨op, a⟩ := e
  cases op with
  | claim k claim =>
    simp only [claims, decide_eq_false_iff_not] at h
    simp [wins, h]
  | _ => rfl

theorem claims_of_ne {op : Statement} (h : ∀ claim, op ≠ .claim pk claim) (a : Answer op) :
    claims pk ⟨op, a⟩ = false := by
  cases op with
  | claim k claim =>
    simp only [claims, decide_eq_false_iff_not]
    intro hk
    exact h claim (by rw [hk])
  | _ => rfl

/-- A load answers with the row, or with none where there is none. -/
theorem exec_load_faithful {s : Store ω} {row : ApprovalRequest} (hrow : s.request pk = some row)
    (hkind : row.kind = kind) (op : Statement) :
    Faithful pk kind [⟨op, (exec cfg op s).1⟩] := by
  intro k a ha
  rw [List.mem_singleton] at ha
  cases op with
  | load k' =>
    cases ha
    refine ⟨?_, ?_⟩
    · rintro rfl hnone
      rw [show s.request k = none from hnone] at hrow
      cases hrow
    · intro req hreq
      refine ⟨Table.key_of_get hreq, ?_⟩
      rintro rfl
      rw [show s.request k = some req from hreq] at hrow
      cases hrow
      exact hkind
  | _ => cases ha

theorem Tallied.step {row₀ : ApprovalRequest} {history : List (ℕ × Event Answer)} {s : Store ω}
    (h : Tallied pk row₀ history s) (i : ℕ) {op : Statement} (hop : Agrees s op) :
    Tallied pk row₀ (history ++ [(i, ⟨op, (exec cfg op s).1⟩)]) (exec cfg op s).2 := by
  obtain ⟨row, hrow, hkind, hpending, hdecided⟩ := h.row
  obtain ⟨row', hrow', -, hkind', hcases⟩ := exec_row cfg op hop hrow
  refine ⟨⟨row', hrow', hkind'.trans hkind, ?_⟩, ?_, ?_⟩
  · by_cases hclaim : ∃ claim, op = .claim pk claim
    · obtain ⟨claim, rfl⟩ := hclaim
      have hanswer : (exec cfg (.claim pk claim) s).1 = row.isPending := claim_answer claim hrow
      rcases hcases with ⟨hsame, hnot⟩ | ⟨claim', heq, hwas, hnow⟩
      · have hwas : row.status ≠ .pending := hnot claim rfl
        have hstatus : row'.status = row.status := congrArg Prod.fst hsame
        have hlost : wins pk ⟨.claim pk claim, (exec cfg (.claim pk claim) s).1⟩ = false := by
          rw [hanswer]
          simp [wins, ApprovalRequest.isPending, hwas]
        refine ⟨fun hnow => absurd (hstatus ▸ hnow) hwas, fun _ => ?_⟩
        rw [List.countP_append, hdecided hwas, List.countP_singleton, if_neg (by simp [hlost])]
      · cases heq
        have hwon : wins pk ⟨.claim pk claim, (exec cfg (.claim pk claim) s).1⟩ = true := by
          rw [hanswer]
          simp [wins, ApprovalRequest.isPending, hwas]
        have hstatus : row'.status = claim.status := by
          have := congrArg Prod.fst hnow
          exact this.trans (claim_status claim row)
        refine ⟨fun hnow => absurd (hstatus.symm.trans hnow) claim.terminal, fun _ => ?_⟩
        rw [List.countP_append, (hpending hwas).2.2, List.countP_singleton, if_pos hwon]
    · have hclaims := claims_of_ne (fun claim heq => hclaim ⟨claim, heq⟩) (exec cfg op s).1
      have hwins := wins_of_claims hclaims
      rcases hcases with ⟨hsame, -⟩ | ⟨claim, heq, -⟩
      · have hstatus : row'.status = row.status := congrArg Prod.fst hsame
        simp only [List.countP_append, List.countP_singleton, hclaims, hwins, hstatus, hsame]
        exact ⟨fun hnow => by simpa using hpending hnow, fun hnow => by simpa using hdecided hnow⟩
      · exact absurd ⟨claim, heq⟩ hclaim
  · rw [List.map_append]
    exact faithful_append.mpr ⟨h.loads, exec_load_faithful hrow hkind op⟩
  · intro j claim hj
    rcases List.mem_append.mp hj with hj | hj
    · exact stable_decided _ s op (h.written j claim hj) hop
    · rw [List.mem_singleton] at hj
      have hevent := (Prod.mk.inj hj).2
      obtain rfl : .claim pk claim = op := congrArg Sigma.fst hevent
      have hwon : true = (exec cfg (.claim pk claim) s).1 := eq_of_heq (Sigma.mk.inj hevent).2
      rw [claim_answer claim hrow] at hwon
      have hwas : row.status = .pending := by simpa [ApprovalRequest.isPending] using hwon.symm
      rcases hcases with ⟨-, hnot⟩ | ⟨claim', heq, -, hnow⟩
      · exact absurd hwas (hnot claim rfl)
      · cases heq
        refine ⟨row', hrow', ?_, hnow.trans (claim_decision claim (hpending hwas).1)⟩
        have hstatus : row'.status = (claim.apply row).status := congrArg Prod.fst hnow
        rw [hstatus, claim_status]
        exact claim.terminal

/-- One decision of a request: over a run of calls, and whatever calls follow. -/
structure OneDecision (cfg : Settings ω) (s : Store ω) (pk : ℕ) (row : ApprovalRequest)
    (moves more : List (Move Job)) : Prop where
  /-- The decision of the call that has won stands. -/
  stands : ∀ i claim, (i, ⟨.claim pk claim, true⟩) ∈ (runCalls cfg s moves).history →
    Decided pk (claim.apply row).decision (runCalls cfg s (moves ++ more)).store
  /-- Until one has, the request is as it was filed. -/
  pending : (runCalls cfg s moves).history.countP (fun e => wins pk e.2) = 0 →
    ∃ row', (runCalls cfg s moves).store.request pk = some row' ∧ row'.decision = row.decision
  /-- Of the calls that reach the claim one wins. -/
  winner : (runCalls cfg s moves).history.countP (fun e => claims pk e.2) ≠ 0 →
    (runCalls cfg s moves).history.countP (fun e => wins pk e.2) = 1
  /-- A call runs the callback and the signal once for its win, and never without one. -/
  pays : ∀ i thread, (runCalls cfg s moves).threads[i]? = some thread →
    Pays (cfg.callbacks row.kind) pk 0 0 ((runCalls cfg s moves).trace i) thread.rest.result.isSome
  /-- A call that ends without a win is told so. -/
  lost : ∀ i thread returned, (runCalls cfg s moves).threads[i]? = some thread →
    thread.rest.result = some returned →
    ((runCalls cfg s moves).trace i).countP (wins pk) = 0 →
    Lost pk ((runCalls cfg s moves).trace i) thread.job returned

theorem tallied_run (cfg : Settings ω) {s : Store ω} {row : ApprovalRequest}
    (hrow : s.request pk = some row) (hpending : row.status = .pending) (moves : List (Move Job)) :
    Session.Sound (exec cfg) Agrees (fun _ => True) (runCalls cfg s moves) ∧
      Tallied pk row (runCalls cfg s moves).history (runCalls cfg s moves).store := by
  have hstart : Session.Sound (exec cfg) Agrees (fun _ => True)
      ({ store := s } : Requests ω) := ⟨trivial, by simp⟩
  apply hstart.run (stable_const True) fits_script moves (Session.meets_true moves)
  · intro history s i op _ hop _ h
    exact h.step i hop
  · refine ⟨⟨row, hrow, rfl, ?_, fun h => absurd hpending h⟩, ?_, ?_⟩
    · simp
    · simp [Faithful]
    · simp

/-- A request that was filed as pending is decided once. -/
theorem one_decision (cfg : Settings ω) (s : Store ω) (pk : ℕ) (row : ApprovalRequest)
    (hrow : s.request pk = some row) (hpending : row.status = .pending)
    (moves more : List (Move Job)) : OneDecision cfg s pk row moves more := by
  obtain ⟨hsound, htallied⟩ := tallied_run cfg hrow hpending moves
  obtain ⟨row', hrow', hkind, hwas, hdecided⟩ := htallied.row
  have hfaithful : ∀ i, Faithful pk row.kind ((runCalls cfg s moves).trace i) := by
    intro i k a ha
    apply htallied.loads k a
    exact (List.filter_sublist.map _).subset ha
  refine ⟨?_, ?_, ?_, ?_, ?_⟩
  · intro i claim hwon
    rw [runCalls, Session.run_append]
    apply (hsound.run (J := fun _ s => Decided pk (claim.apply row).decision s)
      (stable_const True) fits_script more (Session.meets_true more) ?_ ?_).2
    · intro _ s _ op _ hop _ h
      exact stable_decided _ s op h hop
    · exact htallied.written i claim hwon
  · intro hnone
    by_cases hstatus : row'.status = .pending
    · exact ⟨row', hrow', (hwas hstatus).1⟩
    · rw [hdecided hstatus] at hnone
      cases hnone
  · intro hsome
    by_cases hstatus : row'.status = .pending
    · exact absurd (hwas hstatus).2.1 hsome
    · exact hdecided hstatus
  · intro i thread hi
    exact Session.traced s moves hi (owes_script thread.job) (hfaithful i)
  · intro i thread returned hi hended hwins
    exact Session.traced s moves hi (lost_script cfg thread.job) (hfaithful i) hwins
      returned hended

/-- An approval and a cancellation that have both passed their checks. -/
theorem race_decided_once :
    OneDecision ({} : Settings Unit)
      { clock := 60, world := (),
        requests := [{ pk := 1, kind := "deploy".toList, requestedBy := some 7, updatedAt := 0 }] }
      1 { pk := 1, kind := "deploy".toList, requestedBy := some 7, updatedAt := 0 }
      [.start (.decide 1 { pk := some 3, isActive := true, isStaff := true } true [] "web".toList),
        .start (.cancel 1 { pk := some 7, isActive := true } [] "api".toList),
        .turn 0, .turn 1, .turn 0, .turn 1, .turn 0, .turn 1, .turn 0] [.turn 1, .turn 0, .turn 0] :=
  one_decision _ _ _ _ rfl rfl _ _

/-! ### Four eyes -/

/-- `can_decide`, of the request as it was filed. -/
def MayDecide (cfg : Settings ω) (row : ApprovalRequest) (user : Actor) : Prop :=
  ∃ n, user.actingPk = some n ∧ (row.requestedBy = some n → cfg.allowSelfApprove = true) ∧
    if row.assignees = [] then user.staff = true
    else n ∈ row.assignees ∨ user.staff = true ∧ cfg.staffOverride = true

/-- `can_cancel`. -/
def MayCancel (row : ApprovalRequest) (user : Actor) : Prop :=
  ∃ n, user.actingPk = some n ∧ (row.requestedBy = some n ∨ user.staff = true)

/-- The request's time is over. -/
def Due (row : ApprovalRequest) (now : Time) : Prop := ∃ d ∈ row.expiresAt, d ≤ now

/-- The call may end the request with the decision, before `clock`. -/
def Entitled (cfg : Settings ω) (pk : ℕ) (row : ApprovalRequest) (clock : Time) (job : Job)
    (decision : Status × Option ℕ × Option Time × Str) : Prop :=
  decision.1 = .expired ∧ Due row clock ∨
    (∃ user approved note source time, job = .decide pk user approved note source ∧
      MayDecide cfg row user ∧ decision = (outcome approved, user.pk, time, note)) ∨
    ∃ user note source time, job = .cancel pk user note source ∧ MayCancel row user ∧
      decision = (.canceled, user.pk, time, note)

/-- The event shows the request as it was filed, before `clock`. -/
def Honest (pk : ℕ) (row : ApprovalRequest) (clock : Time) : Event Answer → Prop
  | ⟨.now, now⟩ => now ≤ clock
  | ⟨.load k, some req⟩ => req.pk = k ∧
      (k = pk → req.requestedBy = row.requestedBy ∧ req.expiresAt = row.expiresAt)
  | ⟨.assignees k, assignees⟩ => k = pk → assignees = row.assignees
  | ⟨.overdue now _, pks⟩ => pk ∈ pks → Due row now
  | _ => True

/-- Among such events the script wins no claim but those in `E`, and returns into `Q`. -/
def Guards (pk : ℕ) (row : ApprovalRequest) (clock : Time) (E : Claim → Prop) (p : Call α)
    (Q : α → Prop) : Prop :=
  p.Traces fun t r => (∀ e ∈ t, Honest pk row clock e) →
    (∀ claim, ⟨.claim pk claim, true⟩ ∈ t → E claim) ∧ ∀ a, r = some a → Q a

section Guards

variable {row : ApprovalRequest} {clock : Time} {E : Claim → Prop} {Q : α → Prop} {R : β → Prop}

theorem guards_ret {a : α} (h : Q a) : Guards pk row clock E (pure a) Q :=
  fun _ => ⟨fun _ hmem => absurd hmem List.not_mem_nil, fun _ hb => Option.some.inj hb ▸ h⟩

theorem guards_perform {op : Statement} {f : Answer op → Call β}
    (hop : ∀ claim, op = .claim pk claim → E claim)
    (hf : ∀ a, Honest pk row clock ⟨op, a⟩ → Guards pk row clock E (f a) R) :
    Guards pk row clock E (perform op >>= f) R := by
  refine Script.traces_perform_bind (fun _ => ⟨by simp, by simp⟩) fun a => ?_
  by_cases ha : Honest pk row clock ⟨op, a⟩
  · refine (hf a ha).mono fun t r h hhonest => ?_
    obtain ⟨hclaims, hres⟩ := h fun e he => hhonest e (List.mem_cons_of_mem _ he)
    refine ⟨fun claim hmem => ?_, hres⟩
    rcases List.mem_cons.mp hmem with heq | hmem
    · exact hop claim (congrArg Sigma.fst heq).symm
    · exact hclaims claim hmem
  · exact Script.traces_of_forall _ fun t r h => absurd (h _ List.mem_cons_self) ha

theorem Guards.bind {p : Call α} {f : α → Call β} (hp : Guards pk row clock E p Q)
    (hf : ∀ a, Q a → Guards pk row clock E (f a) R) : Guards pk row clock E (p >>= f) R := by
  refine Script.Traces.bind hp (fun t h hhonest => ⟨(h hhonest).1, by simp⟩) fun t a h => ?_
  by_cases ht : ∀ e ∈ t, Honest pk row clock e
  · refine (hf a ((h ht).2 a rfl)).mono fun t' r h' hhonest => ?_
    obtain ⟨hclaims, hres⟩ := h' fun e he => hhonest e (List.mem_append_right t he)
    exact ⟨fun claim hmem => (List.mem_append.mp hmem).elim ((h ht).1 claim) (hclaims claim), hres⟩
  · exact Script.traces_of_forall _ fun t' r h =>
      absurd (fun e he => h e (List.mem_append_left t' he)) ht

theorem guards_of_winsAny {p : Call α} (h : p.Traces fun t _ => t.countP winsAny = 0) :
    Guards pk row clock E p fun _ => True := by
  refine h.mono fun t r h _ => ⟨fun claim hmem => ?_, fun _ _ => trivial⟩
  exact absurd rfl (List.countP_eq_zero.mp h _ hmem)

theorem guards_claimPending {k : ℕ} {claim : Claim} (hE : k = pk → E claim) :
    Guards pk row clock E (claimPending k claim) fun _ => True := by
  refine guards_perform ?_ fun updated _ => guards_perform (fun _ h => by cases h) fun a _ => ?_
  · intro claim' heq
    cases heq
    exact hE rfl
  · cases a with
    | none => exact guards_ret trivial
    | some req => cases updated <;> exact guards_ret trivial

theorem guards_finish (req : ApprovalRequest) (actor : Option ℕ) (source : Str) :
    Guards pk row clock E (finish cfg req actor source) fun _ => True :=
  guards_of_winsAny (finish_claims_nothing req actor source)

theorem guards_settle {k : ℕ} {status : Status} {terminal : status ≠ .pending} {actor : Actor}
    {note source : Str} (hE : k = pk → ∀ now, E
      { status, terminal, decidedAt := now, decider := some (actor.pk, note) }) :
    Guards pk row clock E (settle cfg k status terminal actor note source) fun _ => True := by
  refine guards_perform (fun _ h => by cases h) fun now _ => ?_
  refine (guards_claimPending fun hk => hE hk now).bind fun r _ => ?_
  cases r with
  | error e => exact guards_ret trivial
  | ok req => exact guards_finish req actor.pk source

theorem guards_expireInstead {k : ℕ} (hE : k = pk → ∀ claim : Claim, claim.status = .expired → E claim) :
    Guards pk row clock E (expireInstead cfg k) fun _ => True := by
  refine guards_perform (fun _ h => by cases h) fun now _ => ?_
  refine (guards_claimPending fun hk => hE hk _ rfl).bind fun r _ => ?_
  cases r with
  | error e => exact guards_ret trivial
  | ok req =>
    refine (guards_finish req none expiry).bind fun r _ => ?_
    cases r <;> exact guards_ret trivial

theorem guards_expireRow (now : Time) {k : ℕ}
    (hE : k = pk → ∀ claim : Claim, claim.status = .expired → E claim) :
    Guards pk row clock E (expireRow cfg now k) fun _ => True := by
  refine guards_perform (fun claim heq => ?_) fun updated _ => ?_
  · cases heq
    exact hE rfl _ rfl
  · cases updated with
    | false => exact guards_ret trivial
    | true =>
      refine guards_perform (fun _ h => by cases h) fun a _ => ?_
      cases a with
      | none => exact guards_ret trivial
      | some req =>
        refine (guards_finish req none expiry).bind fun r _ => ?_
        cases r <;> exact guards_ret trivial

theorem guards_expireRows (now : Time) {pks : List ℕ}
    (hE : pk ∈ pks → ∀ claim : Claim, claim.status = .expired → E claim) :
    Guards pk row clock E (expireRows cfg now pks) fun _ => True := by
  induction pks with
  | nil => exact guards_ret trivial
  | cons k pks ih =>
    refine (guards_expireRow now fun hk => hE (List.mem_cons.mpr (.inl hk.symm))).bind fun r _ => ?_
    cases r with
    | error e => exact guards_ret trivial
    | ok updated =>
      refine (ih fun hmem => hE (List.mem_cons_of_mem k hmem)).bind fun r _ => ?_
      cases r <;> exact guards_ret trivial

theorem guards_eligible (cfg : Settings ω) (user : Actor) (n : ℕ) (req : ApprovalRequest) :
    Guards pk row clock E (eligible cfg user n req) fun ok => ok = true → req.pk = pk →
      if row.assignees = [] then user.staff = true
      else n ∈ row.assignees ∨ user.staff = true ∧ cfg.staffOverride = true := by
  refine guards_perform (fun _ h => by cases h) fun assignees hfiled => ?_
  by_cases hempty : assignees.isEmpty = true
  · rw [if_pos hempty]
    refine guards_ret fun hstaff hpk => ?_
    rw [if_pos (hfiled hpk ▸ List.isEmpty_iff.mp hempty)]
    exact hstaff
  · rw [if_neg hempty]
    refine guards_perform (fun _ h => by cases h) fun assignees' hfiled' => guards_ret fun hok hpk => ?_
    rw [if_neg (hfiled hpk ▸ fun h => hempty (List.isEmpty_iff.mpr h))]
    rw [hfiled' hpk] at hok
    simpa using hok

theorem guards_canDecide (cfg : Settings ω) (user : Actor) (req : ApprovalRequest) :
    Guards pk row clock E (canDecide cfg user req) fun ok => ok = true → req.pk = pk →
      req.requestedBy = row.requestedBy → MayDecide cfg row user := by
  unfold canDecide
  cases hacting : user.actingPk with
  | none => exact guards_ret fun h => by cases h
  | some n =>
    dsimp only
    split
    · exact guards_ret fun h => by cases h
    split
    · exact guards_ret fun h => by cases h
    · rename_i hself
      refine (guards_eligible cfg user n req).bind fun ok hok => ?_
      cases ok with
      | false => exact guards_ret fun h => by cases h
      | true =>
        refine guards_ret fun _ hpk hrequested => ⟨n, hacting, fun hn => ?_, hok rfl hpk⟩
        simpa [hrequested, hn] using hself

theorem guards_onRequest {k : ℕ} {body : ApprovalRequest → Call (Except ApprovalError ApprovalRequest)}
    (hbody : ∀ req, (req.pk = pk →
        k = pk ∧ req.requestedBy = row.requestedBy ∧ req.expiresAt = row.expiresAt) →
      Guards pk row clock E (body req) fun _ => True) :
    Guards pk row clock E (onRequest k body) fun _ => True := by
  refine guards_perform (fun _ h => by cases h) fun a hfiled => ?_
  cases a with
  | none => exact guards_ret trivial
  | some req =>
    refine (hbody req fun hpk => ?_).bind fun r _ => guards_ret trivial
    obtain ⟨hk, hrequested⟩ := hfiled
    exact ⟨hk.symm.trans hpk, hrequested (hk.symm.trans hpk)⟩

end Guards

/-- A call wins only what it is entitled to. -/
theorem guards_script (cfg : Settings ω) (pk : ℕ) (row : ApprovalRequest) (clock : Time) (job : Job) :
    Guards pk row clock (fun claim => Entitled cfg pk row clock job (claim.apply row).decision)
      (job.script cfg) fun _ => True := by
  have hexpired : Due row clock → ∀ claim : Claim, claim.status = .expired →
      Entitled cfg pk row clock job (claim.apply row).decision :=
    fun hdue claim h => .inl ⟨(claim_status claim row).trans h, hdue⟩
  cases job with
  | decide k user approved note source =>
    refine guards_onRequest fun req hfiled => ?_
    unfold Approvals.decide
    split
    · exact guards_ret trivial
    refine Guards.bind (Q := fun overdue => overdue = true → req.pk = pk → Due row clock) ?_
      fun overdue hdue => ?_
    · unfold isOverdue
      split
      · rename_i d _ hexpires
        refine guards_perform (fun _ h => by cases h) fun now hnow => guards_ret fun hle hpk => ?_
        exact ⟨d, (hfiled hpk).2.2 ▸ hexpires, (of_decide_eq_true hle).trans hnow⟩
      · exact guards_ret fun h => by cases h
    split
    · rename_i hoverdue
      exact guards_expireInstead fun hpk => hexpired (hdue hoverdue hpk)
    split
    · exact guards_ret trivial
    refine (guards_canDecide cfg user req).bind fun ok hok => ?_
    cases ok with
    | false => exact guards_ret trivial
    | true =>
      refine guards_settle fun hpk now =>
        .inr (.inl ⟨user, approved, note, source, _, ?_, ?_, rfl⟩)
      · rw [(hfiled hpk).1]
      · exact hok rfl hpk (hfiled hpk).2.1
  | cancel k user note source =>
    refine guards_onRequest fun req hfiled => ?_
    unfold cancel
    split
    · exact guards_ret trivial
    split
    · exact guards_ret trivial
    · rename_i hcancel
      refine guards_settle fun hpk now => .inr (.inr ⟨user, note, source, _, ?_, ?_, rfl⟩)
      · rw [(hfiled hpk).1]
      · rw [Actor.canCancel] at hcancel
        cases hacting : user.actingPk with
        | none => simp [hacting] at hcancel
        | some n =>
          refine ⟨n, hacting, ?_⟩
          simp only [hacting, Bool.not_eq_true, Bool.not_eq_false', Bool.and_eq_true] at hcancel
          simpa [(hfiled hpk).2.1] using hcancel.2
  | markExpired scope limit =>
    refine Guards.bind (Q := fun _ => True) ?_ fun r _ => guards_ret trivial
    refine guards_perform (fun _ h => by cases h) fun now hnow => ?_
    refine guards_perform (fun _ h => by cases h) fun overdue hoverdue => ?_
    have hmem : pk ∈ overdue → Due row clock := by
      intro h
      obtain ⟨d, hd, hle⟩ := hoverdue h
      exact ⟨d, hd, hle.trans hnow⟩
    cases limit with
    | none => exact guards_expireRows now fun h => hexpired (hmem h)
    | some limit =>
      dsimp only
      split
      · exact guards_expireRows now fun h => hexpired (hmem (List.mem_of_mem_take h))
      · exact guards_expireRows now fun h => hexpired (hmem h)
  | elapse d => exact guards_perform (fun _ h => by cases h) fun _ _ => guards_ret trivial

/-- The row still stands as it was filed: by whom, for whom and until when. -/
def Filed (pk : ℕ) (row : ApprovalRequest) (s : Store ω) : Prop :=
  Table.Unique ApprovalRequest.pk s.requests ∧ ∃ row', s.request pk = some row' ∧
    row'.requestedBy = row.requestedBy ∧ row'.assignees = row.assignees ∧
      row'.expiresAt = row.expiresAt

theorem exec_filed (cfg : Settings ω) {s : Store ω} {row : ApprovalRequest} (op : Statement)
    (h : Filed pk row s) : Filed pk row (exec cfg op s).2 := by
  have halter : ∀ {f : ApprovalRequest → ApprovalRequest} (k : ℕ), (∀ r, (f r).pk = r.pk ∧
      (f r).requestedBy = r.requestedBy ∧ (f r).assignees = r.assignees ∧
        (f r).expiresAt = r.expiresAt) → Filed pk row (s.alter k f) := by
    intro f k hf
    obtain ⟨hs, row', hrow, hby, hfor, huntil⟩ := h
    refine ⟨hs.alter fun r => (hf r).1, _, request_alter (fun r => (hf r).1) hrow k, ?_⟩
    obtain ⟨-, hby', hfor', huntil'⟩ := hf row'
    split
    · exact ⟨hby'.trans hby, hfor'.trans hfor, huntil'.trans huntil⟩
    · exact ⟨hby, hfor, huntil⟩
  cases op with
  | now | load | assignees | overdue | log | signal | elapse => exact h
  | callback copy =>
    simp only [exec, Store.callback]
    split <;> exact h
  | storeError k | save copy => exact halter _ fun r => ⟨rfl, rfl, rfl, rfl⟩
  | claim k claim =>
    simp only [exec]
    split
    · refine halter k fun r => ?_
      unfold Claim.apply
      cases claim.decider <;> exact ⟨rfl, rfl, rfl, rfl⟩
    · exact h

theorem exec_honest (cfg : Settings ω) {s : Store ω} {row : ApprovalRequest} (op : Statement)
    (h : Filed pk row s) : Honest pk row s.clock ⟨op, (exec cfg op s).1⟩ := by
  obtain ⟨hs, row', hrow, hrequested, hassignees, hexpires⟩ := h
  cases op with
  | now => exact le_refl s.clock
  | load k =>
    show Honest pk row s.clock ⟨.load k, s.request k⟩
    cases hk : s.request k with
    | none => trivial
    | some req =>
      refine ⟨Table.key_of_get hk, fun heq => ?_⟩
      rw [← heq, hk, Option.some.injEq] at hrow
      exact hrow ▸ ⟨hrequested, hexpires⟩
  | assignees k =>
    rintro rfl
    simp [exec, hrow, hassignees]
  | overdue now scope =>
    intro hmem
    obtain ⟨r, hr, rfl⟩ := List.mem_map.mp hmem
    obtain ⟨hr, hdue⟩ := List.mem_filter.mp (List.mem_mergeSort.mp hr)
    have heq : r = row' := Option.some.inj ((Table.get_of_mem hs hr).symm.trans hrow)
    simp only [ApprovalRequest.overdueAt, Bool.and_eq_true, Option.any_eq_true, heq, hexpires] at hdue
    obtain ⟨d, hd, hle⟩ := hdue.2.2
    exact ⟨d, hd, of_decide_eq_true hle⟩
  | _ => trivial

theorem Honest.mono {row : ApprovalRequest} {clock clock' : Time} (hle : clock ≤ clock')
    {e : Event Answer} (h : Honest pk row clock e) : Honest pk row clock' e := by
  obtain ⟨op, a⟩ := e
  cases op with
  | now => exact le_trans h hle
  | load => cases a <;> exact h
  | _ => exact h

/-- However a request has ended, it is by a call that may end it so. -/
def FourEyes (cfg : Settings ω) (s : Store ω) (pk : ℕ) (row : ApprovalRequest)
    (moves : List (Move Job)) : Prop :=
  ∀ row', (runCalls cfg s moves).store.request pk = some row' → row'.status ≠ .pending →
    ∃ thread ∈ (runCalls cfg s moves).threads,
      Entitled cfg pk row (runCalls cfg s moves).store.clock thread.job row'.decision

/-- **Four eyes**: nobody ends a request who may not, however the calls interleave. -/
theorem four_eyes (cfg : Settings ω) (s : Store ω) (pk : ℕ) (row : ApprovalRequest)
    (hs : Table.Unique ApprovalRequest.pk s.requests) (hrow : s.request pk = some row)
    (hpending : row.status = .pending) (moves : List (Move Job)) : FourEyes cfg s pk row moves := by
  obtain ⟨-, htallied⟩ := tallied_run cfg hrow hpending moves
  have hstart : Session.Sound (exec cfg) Agrees (fun _ => True)
      ({ store := s } : Requests ω) := ⟨trivial, by simp⟩
  have hhonest := (hstart.run (J := fun history s => Filed pk row s ∧
      ∀ e ∈ history, Honest pk row s.clock e.2) (stable_const True) fits_script moves
    (Session.meets_true moves) (by
      rintro history s i op - - - ⟨hfiled, hall⟩
      refine ⟨exec_filed cfg op hfiled, fun e he => Honest.mono (exec_clock op) ?_⟩
      rcases List.mem_append.mp he with he | he
      · exact hall e he
      · rw [List.mem_singleton.mp he]
        exact exec_honest cfg op hfiled)
    ⟨⟨hs, row, hrow, rfl, rfl, rfl⟩, by simp⟩).2.2
  intro row' hrow' hstatus
  obtain ⟨r, hr, -, -, hdecided⟩ := htallied.row
  obtain rfl : r = row' := Option.some.inj (hr.symm.trans hrow')
  have hwon : 0 < (runCalls cfg s moves).history.countP fun e => wins pk e.2 := by
    rw [hdecided hstatus]
    exact Nat.one_pos
  obtain ⟨⟨i, op, a⟩, hmem, hwins⟩ := List.countP_pos_iff.mp hwon
  cases op with
  | claim k claim =>
    simp only [wins, Bool.and_eq_true, decide_eq_true_eq] at hwins
    obtain ⟨rfl, rfl⟩ := hwins
    obtain ⟨r', hr', -, hdecision⟩ := htallied.written i claim hmem
    obtain rfl : r' = r := Option.some.inj (hr'.symm.trans hrow')
    have hlt := ((Session.traced_start (Job.script cfg) s).run (exec cfg) moves).numbers _ hmem
    have hthread := List.getElem?_eq_getElem hlt
    refine ⟨_, List.getElem_mem hlt, hdecision ▸ ?_⟩
    have htraced := Session.traced s moves hthread
      (guards_script cfg k row (runCalls cfg s moves).store.clock _)
    refine (htraced fun e he => ?_).1 claim ?_
    · obtain ⟨x, hx, rfl⟩ := List.mem_map.mp he
      exact hhonest x (List.mem_of_mem_filter hx)
    · exact List.mem_map.mpr ⟨_, List.mem_filter.mpr ⟨hmem, decide_eq_true rfl⟩, rfl⟩
  | _ => cases hwins

/-- Staff approves while the requester cancels. -/
theorem race_four_eyes :
    FourEyes ({} : Settings Unit)
      { clock := 60, world := (),
        requests := [{ pk := 1, kind := "deploy".toList, requestedBy := some 7, updatedAt := 0 }] }
      1 { pk := 1, kind := "deploy".toList, requestedBy := some 7, updatedAt := 0 }
      [.start (.decide 1 { pk := some 3, isActive := true, isStaff := true } true [] "web".toList),
        .start (.cancel 1 { pk := some 7, isActive := true } [] "api".toList),
        .turn 0, .turn 1, .turn 0, .turn 1, .turn 0, .turn 1, .turn 1] :=
  four_eyes _ _ _ _ (by simp [Table.Unique]) rfl rfl _

end CwStation.Approvals
