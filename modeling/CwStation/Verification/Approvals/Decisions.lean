import CwStation.Model.Approvals

/-! # A request is decided once -/

namespace CwStation.Approvals

open Tasks (Time)
open Scripts

variable {ω : Type} {cfg : Settings ω} {s : Store ω} {pk : ℕ} {row : ApprovalRequest}

/-! ### What a statement does to a request -/

/-- A request has been decided so. -/
def Decided (pk : ℕ) (decision : Status × Option ℕ × Option Time × Str) (s : Store ω) : Prop :=
  ∃ row, s.request pk = some row ∧ row.status ≠ .pending ∧ row.decision = decision

/-- What the calls keep to: a copy is saved where it agrees with the decision of its row. -/
def Agrees (s : Store ω) : Statement → Prop
  | .save copy => Decided copy.pk copy.decision s
  | _ => True

theorem request_alter {f : ApprovalRequest → ApprovalRequest} (hf : ∀ r, (f r).pk = r.pk)
    (hrow : s.request pk = some row) (k : ℕ) :
    (s.alter k f).request pk = some (if pk = k then f row else row) := by
  rw [Store.request, Store.alter, Table.get_alter hf]
  by_cases hk : pk = k
  · subst hk
    rw [if_pos rfl, if_pos rfl]
    exact congrArg (Option.map f) hrow
  · rw [if_neg hk, if_neg hk]
    exact hrow

theorem claim_pk (claim : Claim) (row : ApprovalRequest) : (claim.apply row).pk = row.pk := by
  unfold Claim.apply
  cases claim.decider <;> rfl

theorem claim_status (claim : Claim) (row : ApprovalRequest) :
    (claim.apply row).status = claim.status := by
  unfold Claim.apply
  cases claim.decider <;> rfl

/-- What a claim leaves of a row depends on the decision of the row only. -/
theorem claim_decision (claim : Claim) {row row' : ApprovalRequest}
    (h : row.decision = row'.decision) :
    (claim.apply row).decision = (claim.apply row').decision := by
  simp only [ApprovalRequest.decision, Prod.mk.injEq] at h
  unfold Claim.apply
  cases claim.decider <;> simp [ApprovalRequest.decision, h]

/-- A statement leaves the decision of a row as it is, or it is the claim on a pending row. -/
theorem exec_row (cfg : Settings ω) (op : Statement) (hop : Agrees s op) (hrow : s.request pk = some row) :
    ∃ row', (exec cfg op s).2.request pk = some row' ∧ row'.expiresAt = row.expiresAt ∧
      row'.kind = row.kind ∧
      (row'.decision = row.decision ∧ (∀ claim, op = .claim pk claim → row.status ≠ .pending) ∨
        ∃ claim, op = .claim pk claim ∧ row.status = .pending ∧
          row'.decision = (claim.apply row).decision) := by
  cases op with
  | now | load _ | assignees _ | overdue _ _ | log _ _ _ | signal _ _ _ | elapse _ =>
    exact ⟨row, hrow, rfl, rfl, .inl ⟨rfl, nofun⟩⟩
  | callback copy =>
    refine ⟨row, ?_, rfl, rfl, .inl ⟨rfl, nofun⟩⟩
    simp only [exec, Store.callback]
    split <;> exact hrow
  | storeError k traceback =>
    refine ⟨_, request_alter (by intro r; rfl) hrow k, ?_⟩
    by_cases hk : pk = k
    · rw [if_pos hk]
      exact ⟨rfl, rfl, .inl ⟨rfl, nofun⟩⟩
    · rw [if_neg hk]
      exact ⟨rfl, rfl, .inl ⟨rfl, nofun⟩⟩
  | save copy =>
    refine ⟨_, request_alter (by intro r; rfl) hrow copy.pk, ?_⟩
    by_cases hk : pk = copy.pk
    · subst hk
      obtain ⟨r, hr, -, hdecision⟩ := hop
      rw [hrow] at hr
      cases hr
      rw [if_pos rfl]
      exact ⟨rfl, rfl, .inl ⟨hdecision.symm, nofun⟩⟩
    · rw [if_neg hk]
      exact ⟨rfl, rfl, .inl ⟨rfl, nofun⟩⟩
  | claim k claim =>
    simp only [exec]
    by_cases hpending : (s.request k).any ApprovalRequest.isPending = true
    · rw [if_pos hpending]
      refine ⟨_, request_alter (claim_pk claim) hrow k, ?_⟩
      by_cases hk : pk = k
      · subst hk
        rw [hrow, Option.any_some, ApprovalRequest.isPending, decide_eq_true_eq] at hpending
        rw [if_pos rfl]
        refine ⟨?_, ?_, .inr ⟨claim, rfl, hpending, rfl⟩⟩
        · unfold Claim.apply
          cases claim.decider <;> rfl
        · unfold Claim.apply
          cases claim.decider <;> rfl
      · rw [if_neg hk]
        refine ⟨rfl, rfl, .inl ⟨rfl, ?_⟩⟩
        intro claim' hclaim
        cases hclaim
        exact absurd rfl hk
    · rw [if_neg hpending]
      refine ⟨row, hrow, rfl, rfl, .inl ⟨rfl, ?_⟩⟩
      intro claim' hclaim hstatus
      cases hclaim
      exact hpending (by simp [hrow, ApprovalRequest.isPending, hstatus])

theorem claim_answer (claim : Claim) (hrow : s.request pk = some row) :
    (exec cfg (.claim pk claim) s).1 = row.isPending := by
  simp only [exec, hrow, Option.any_some]
  split
  · rename_i h
    exact h.symm
  · rename_i h
    simpa using h

/-- A decision stays. -/
theorem stable_decided (decision : Status × Option ℕ × Option Time × Str) :
    Stable (exec cfg) Agrees (Decided pk decision) := by
  rintro s op ⟨row, hrow, hstatus, hdecision⟩ hop
  obtain ⟨row', hrow', -, -, ⟨hsame, -⟩ | ⟨claim, -, hpending, -⟩⟩ :=
    exec_row cfg op hop hrow
  · refine ⟨row', hrow', ?_, hsame.trans hdecision⟩
    have hstatus' : row'.status = row.status := congrArg Prod.fst hsame
    rw [hstatus']
    exact hstatus
  · exact absurd hpending hstatus

/-! ### The calls save what has been decided -/

/-- The row of a copy has been decided as the copy says. -/
def Settled (req : ApprovalRequest) (s : Store ω) : Prop := Decided req.pk req.decision s

theorem stable_settled (req : ApprovalRequest) : Stable (exec cfg) Agrees (Settled req) :=
  stable_decided req.decision

/-- What lasts as long as decisions stay. -/
def Lasting (P : Store ω → Prop) : Prop :=
  ∀ s s', (∀ pk decision, Decided pk decision s → Decided pk decision s') → P s → P s'

theorem Lasting.stable {P : Store ω → Prop} (h : Lasting P) : Stable (exec cfg) Agrees P :=
  fun s op hP hop => h s _ (fun _ decision hd => stable_decided decision s op hd hop) hP

theorem lasting_true : Lasting fun _ : Store ω => True := fun _ _ _ _ => trivial

theorem lasting_settled (req : ApprovalRequest) : Lasting (Settled (ω := ω) req) :=
  fun _ _ hstay h => hstay _ _ h

/-- A copy that a call holds on to has been settled. -/
def Holds : Except ApprovalError ApprovalRequest → Store ω → Prop
  | .ok req, s => Settled req s
  | .error _, _ => True

section fits

variable {P : Store ω → Prop}

/-- A statement that nothing is asked of. -/
theorem fits_free (op : Statement) (hop : ∀ s : Store ω, Agrees s op) :
    FitsIn (exec cfg) Agrees Lasting (perform op) (fun _ => True) fun _ _ => True :=
  fitsIn_perform (fun _ => lasting_true) fun s _ => ⟨hop s, trivial⟩

/-- A decided row is loaded as it has been decided. -/
theorem fits_load_decided (pk : ℕ) :
    FitsIn (exec cfg) Agrees Lasting (perform (.load pk)) (fun s => ∃ decision, Decided pk decision s)
      fun a s => ∀ req, a = some req → Settled req s := by
  apply fitsIn_perform
  · intro a s s' hstay h req hreq
    exact hstay _ _ (h req hreq)
  · rintro s ⟨decision, row, hrow, hstatus, -⟩
    refine ⟨trivial, ?_⟩
    intro req hreq
    obtain rfl : req = row := Option.some.inj (Eq.trans (Eq.symm hreq) hrow)
    have hpk : req.pk = pk := Table.key_of_get hrow
    exact ⟨req, hpk ▸ hrow, hstatus, rfl⟩

theorem fits_claim (pk : ℕ) (claim : Claim) :
    FitsIn (exec cfg) Agrees Lasting (perform (.claim pk claim)) (fun _ => True)
      fun updated s => updated = true → ∃ decision, Decided pk decision s := by
  apply fitsIn_perform
  · intro a s s' hstay h ha
    obtain ⟨decision, hdecided⟩ := h ha
    exact ⟨decision, hstay _ _ hdecided⟩
  · intro s _
    refine ⟨trivial, ?_⟩
    intro hwon
    simp only [exec] at hwon ⊢
    split at hwon
    · rename_i hpending
      obtain ⟨row, hrow⟩ : ∃ row, s.request pk = some row := by
        cases hget : s.request pk with
        | none => simp [hget] at hpending
        | some row => exact ⟨row, rfl⟩
      rw [if_pos hpending]
      refine ⟨_, claim.apply row, ?_, ?_, rfl⟩
      · exact (request_alter (claim_pk claim) hrow pk).trans (by rw [if_pos rfl])
      · rw [claim_status]
        exact claim.terminal
    · cases hwon

theorem fits_claimPending (pk : ℕ) (claim : Claim) :
    FitsIn (exec cfg) Agrees Lasting (claimPending pk claim) (fun _ => True) Holds := by
  refine (fits_claim pk claim).bind fun updated => ?_
  cases updated with
  | false =>
    refine ((fits_free (.load pk) fun _ => trivial).before fun _ _ => trivial).bind fun a => ?_
    cases a with
    | none => exact fun _ _ => trivial
    | some req => exact fun _ _ => trivial
  | true =>
    refine ((fits_load_decided pk).before fun s h => h rfl).bind fun a => ?_
    cases a with
    | none => exact fun _ _ => trivial
    | some req => exact fun s h => h req rfl

theorem fits_runCallback (req : ApprovalRequest) :
    FitsIn (exec cfg) Agrees Lasting (runCallback cfg req) (Settled req) Holds := by
  unfold runCallback
  split
  · exact fun _ h => h
  refine (fitsIn_perform (Q := fun _ => Settled req) (fun _ => lasting_settled req) ?_).bind fun a => ?_
  · intro s h
    exact ⟨trivial, stable_settled req s (.callback req) h trivial⟩
  cases a with
  | none => exact fun _ h => h
  | some traceback =>
    refine (fitsIn_perform (Q := fun _ => Settled req) (fun _ => lasting_settled req) ?_).bind fun _ => ?_
    · intro s h
      exact ⟨trivial, stable_settled req s (.storeError req.pk _) h trivial⟩
    refine ((fits_load_decided req.pk).before fun s h => ⟨_, h⟩).bind fun a => ?_
    cases a with
    | none => exact fun _ _ => trivial
    | some req' => exact fun s h => h req' rfl

theorem fits_finish (req : ApprovalRequest) (actor : Option ℕ) (source : Str) :
    FitsIn (exec cfg) Agrees Lasting (finish cfg req actor source) (Settled req) fun _ _ => True := by
  refine (fits_runCallback req).bind fun r => ?_
  cases r with
  | error e => exact fun _ _ => trivial
  | ok req =>
    refine (fitsIn_perform (Q := fun _ _ => True) (fun _ => lasting_true) ?_).bind fun _ => ?_
    · intro s h
      exact ⟨h, trivial⟩
    refine (fits_free (.log req.pk actor source) fun _ => trivial).bind fun _ => ?_
    refine (fits_free (.signal req.pk actor source) fun _ => trivial).bind fun _ => ?_
    exact fun _ _ => trivial

theorem fits_expireInstead (pk : ℕ) :
    FitsIn (exec cfg) Agrees Lasting (expireInstead cfg pk) (fun _ => True) fun _ _ => True := by
  refine (fits_free .now fun _ => trivial).bind fun now => ?_
  refine (fits_claimPending pk _).bind fun r => ?_
  cases r with
  | error e => exact fun _ _ => trivial
  | ok req =>
    refine (fits_finish req none expiry).bind fun r => ?_
    cases r <;> exact fun _ _ => trivial

theorem fits_settle (pk : ℕ) (status : Status) (terminal : status ≠ .pending) (actor : Actor)
    (note source : Str) :
    FitsIn (exec cfg) Agrees Lasting (settle cfg pk status terminal actor note source) (fun _ => True)
      fun _ _ => True := by
  refine (fits_free .now fun _ => trivial).bind fun now => ?_
  refine (fits_claimPending pk _).bind fun r => ?_
  cases r with
  | error e => exact fun _ _ => trivial
  | ok req => exact fits_finish req actor.pk source

theorem fits_canDecide (user : Actor) (req : ApprovalRequest) :
    FitsIn (exec cfg) Agrees Lasting (canDecide cfg user req) (fun _ => True) fun _ _ => True := by
  unfold canDecide
  cases user.actingPk with
  | none => exact fun _ _ => trivial
  | some pk =>
    dsimp only
    split
    · exact fun _ _ => trivial
    split
    · exact fun _ _ => trivial
    have heligible : FitsIn (exec cfg) Agrees Lasting (eligible cfg user pk req) (fun _ => True)
        fun _ _ => True := by
      refine (fits_free (.assignees req.pk) fun _ => trivial).bind fun assignees => ?_
      split
      · exact fun _ _ => trivial
      refine (fits_free (.assignees req.pk) fun _ => trivial).bind fun assignees => ?_
      exact fun _ _ => trivial
    refine heligible.bind fun ok => ?_
    cases ok <;> exact fun _ _ => trivial

theorem fits_isOverdue (req : ApprovalRequest) :
    FitsIn (exec cfg) Agrees Lasting (isOverdue req) (fun _ => True) fun _ _ => True := by
  unfold isOverdue
  split
  · refine (fits_free .now fun _ => trivial).bind fun now => ?_
    exact fun _ _ => trivial
  · exact fun _ _ => trivial

theorem fits_decide (req : ApprovalRequest) (actor : Actor) (approved : Bool) (note source : Str) :
    FitsIn (exec cfg) Agrees Lasting (Approvals.decide cfg req actor approved note source) (fun _ => True)
      fun _ _ => True := by
  unfold Approvals.decide
  split
  · exact fun _ _ => trivial
  refine (fits_isOverdue req).bind fun overdue => ?_
  split
  · exact fits_expireInstead req.pk
  split
  · exact fun _ _ => trivial
  refine (fits_canDecide actor req).bind fun ok => ?_
  split
  · exact fun _ _ => trivial
  · exact fits_settle req.pk _ _ actor note source

theorem fits_cancel (req : ApprovalRequest) (actor : Actor) (note source : Str) :
    FitsIn (exec cfg) Agrees Lasting (cancel cfg req actor note source) (fun _ => True) fun _ _ => True := by
  unfold cancel
  split
  · exact fun _ _ => trivial
  split
  · exact fun _ _ => trivial
  · exact fits_settle req.pk _ _ actor note source

theorem fits_expireRow (now : Time) (pk : ℕ) :
    FitsIn (exec cfg) Agrees Lasting (expireRow cfg now pk) (fun _ => True) fun _ _ => True := by
  refine (fits_claim pk _).bind fun updated => ?_
  cases updated with
  | false => exact fun _ _ => trivial
  | true =>
    refine ((fits_load_decided pk).before fun s h => h rfl).bind fun a => ?_
    cases a with
    | none => exact fun _ _ => trivial
    | some req =>
      refine ((fits_finish req none expiry).before fun s h => h req rfl).bind fun r => ?_
      cases r <;> exact fun _ _ => trivial

theorem fits_expireRows (now : Time) (pks : List ℕ) :
    FitsIn (exec cfg) Agrees Lasting (expireRows cfg now pks) (fun _ => True) fun _ _ => True := by
  induction pks with
  | nil => exact fun _ _ => trivial
  | cons pk pks ih =>
    refine (fits_expireRow now pk).bind fun r => ?_
    cases r with
    | error e => exact fun _ _ => trivial
    | ok updated =>
      refine ih.bind fun r => ?_
      cases r <;> exact fun _ _ => trivial

theorem fits_markExpired (scope : ApprovalRequest → Bool) (limit : Option ℤ) :
    FitsIn (exec cfg) Agrees Lasting (markExpired cfg scope limit) (fun _ => True) fun _ _ => True := by
  refine (fits_free .now fun _ => trivial).bind fun now => ?_
  refine (fits_free (.overdue now scope) fun _ => trivial).bind fun overdue => ?_
  cases limit with
  | none => exact fits_expireRows now overdue
  | some limit =>
    dsimp only
    split <;> exact fits_expireRows now _

theorem fits_onRequest (pk : ℕ)
    {body : ApprovalRequest → Call (Except ApprovalError ApprovalRequest)}
    (hbody : ∀ req, FitsIn (exec cfg) Agrees Lasting (body req) (fun _ => True) fun _ _ => True) :
    FitsIn (exec cfg) Agrees Lasting (onRequest pk body) (fun _ => True) fun _ _ => True := by
  refine (fits_free (.load pk) fun _ => trivial).bind fun a => ?_
  cases a with
  | none => exact fun _ _ => trivial
  | some req =>
    refine (hbody req).bind fun r => ?_
    exact fun _ _ => trivial

/-- Every call saves nothing but what has been decided. -/
theorem fitsIn_script (job : Job) :
    FitsIn (exec cfg) Agrees Lasting (job.script cfg) (fun _ => True) fun _ _ => True := by
  cases job with
  | decide pk actor approved note source =>
    exact fits_onRequest pk fun req => fits_decide req actor approved note source
  | cancel pk actor note source =>
    exact fits_onRequest pk fun req => fits_cancel req actor note source
  | markExpired scope limit =>
    refine (fits_markExpired scope limit).bind fun r => ?_
    exact fun _ _ => trivial
  | elapse d =>
    refine (fits_free (.elapse d) fun _ => trivial).bind fun _ => ?_
    exact fun _ _ => trivial

theorem fits_script (job : Job) :
    Fits (exec cfg) Agrees (job.script cfg) (fun _ => True) fun _ _ => True :=
  (fitsIn_script job).fits fun _ => Lasting.stable

end fits

/-! ## Expiry -/

/-- Every reader is shown the request as expired. -/
def ShownExpired (pk : ℕ) (s : Store ω) : Prop :=
  ∃ row, s.request pk = some row ∧ row.effectiveStatus s.clock = .expired

/-- A decision is claimed before the request is over. -/
def inTime (s : Store ω) : Statement → Bool
  | .claim pk claim => claim.status = .expired ||
      (s.request pk).all fun row => !row.overdueAt s.clock
  | _ => true

theorem exec_clock (op : Statement) : s.clock ≤ (exec cfg op s).2.clock := by
  cases op with
  | elapse d =>
    exact le_add_of_nonneg_right (Int.natCast_nonneg d)
  | claim k claim =>
    simp only [exec]
    split <;> exact le_refl _
  | callback copy =>
    simp only [exec, Store.callback]
    split <;> exact le_refl _
  | _ => exact le_refl _

theorem overdueAt_mono {now later : Time} (hle : now ≤ later) (h : row.overdueAt now = true) :
    row.overdueAt later = true := by
  simp only [ApprovalRequest.overdueAt, Bool.and_eq_true] at h ⊢
  refine ⟨h.1, ?_⟩
  cases hexpires : row.expiresAt with
  | none => simp [hexpires] at h
  | some expiresAt =>
    have hle' : expiresAt ≤ now := by simpa [hexpires] using h.2
    simpa using hle'.trans hle

theorem effectiveStatus_eq_expired {now : Time} :
    row.effectiveStatus now = .expired ↔ row.status = .expired ∨ row.overdueAt now = true := by
  unfold ApprovalRequest.effectiveStatus
  by_cases h : row.overdueAt now = true <;> simp [h]

theorem shownExpired_step (h : ShownExpired pk s) {op : Statement} (hop : Agrees s op)
    (hintime : inTime s op = true) : ShownExpired pk (exec cfg op s).2 := by
  obtain ⟨row, hrow, hshown⟩ := h
  obtain ⟨row', hrow', hexpires, -, ⟨hsame, -⟩ | ⟨claim, rfl, hpending, hnow⟩⟩ :=
    exec_row cfg op hop hrow
  · have hstatus : row'.status = row.status := congrArg Prod.fst hsame
    refine ⟨row', hrow', ?_⟩
    rw [effectiveStatus_eq_expired] at hshown ⊢
    rcases hshown with hexpired | hoverdue
    · exact .inl (hstatus.trans hexpired)
    · right
      apply overdueAt_mono (exec_clock op)
      simpa [ApprovalRequest.overdueAt, ApprovalRequest.isPending, hstatus, hexpires] using hoverdue
  · have hoverdue : row.overdueAt s.clock = true := by
      rcases effectiveStatus_eq_expired.mp hshown with hexpired | hoverdue
      · rw [hpending] at hexpired
        cases hexpired
      · exact hoverdue
    have hexpired : claim.status = .expired := by
      simp only [inTime, hrow, Option.all_some, hoverdue, Bool.not_true, Bool.or_false] at hintime
      exact of_decide_eq_true hintime
    refine ⟨row', hrow', effectiveStatus_eq_expired.mpr (.inl ?_)⟩
    have hstatus : row'.status = (claim.apply row).status := congrArg Prod.fst hnow
    rw [hstatus, claim_status, hexpired]

/-- As long as decisions are claimed in time, what is shown as expired stays expired. -/
theorem expired_for_good (cfg : Settings ω) (s : Store ω) (pk : ℕ) (moves more : List (Move Job))
    (hintime : Session.Meets (exec cfg) (Job.script cfg) (fun _ s op => inTime s op)
      (runCalls cfg s moves) more)
    (hshown : ShownExpired pk (runCalls cfg s moves).store) :
    ShownExpired pk (runCalls cfg s (moves ++ more)).store := by
  have hstart : Session.Sound (exec cfg) Agrees (fun _ => True)
      ({ store := s } : Requests ω) := ⟨trivial, by simp⟩
  have hsound : Session.Sound (exec cfg) Agrees (fun _ => True) (runCalls cfg s moves) :=
    (hstart.run (J := fun _ _ => True) (stable_const True) fits_script moves
      (Session.meets_true moves) (fun _ _ _ _ _ _ _ _ => trivial) trivial).1
  rw [runCalls, Session.run_append]
  apply (hsound.run (J := fun _ s => ShownExpired pk s) (stable_const True) fits_script more
    hintime ?_ hshown).2
  intro _ s _ op _ hop hintime h
  exact shownExpired_step h hop hintime

/-- An approval that comes too late, and a cancellation behind it. -/
theorem late_approval_expired :
    ShownExpired 1 (runCalls ({} : Settings Unit)
      { clock := 90, world := (), requests := [{
          pk := 1, kind := "deploy".toList, requestedBy := some 7, expiresAt := some 80, updatedAt := 0 }] }
      ([] ++ [.start (.decide 1 { pk := some 3, isActive := true, isStaff := true } true [] []),
        .turn 0, .turn 0, .turn 0, .turn 0,
        .start (.cancel 1 { pk := some 7, isActive := true } [] []), .turn 1, .turn 1])).store :=
  expired_for_good _ _ 1 [] _ (by decide) ⟨_, rfl, by decide⟩

/-- A cancellation does not look at the clock. -/
theorem cancel_revives_expired :
    ¬ ∀ (cfg : Settings Unit) (s : Store Unit) (pk : ℕ) (moves more : List (Move Job)),
      ShownExpired pk (runCalls cfg s moves).store →
      ShownExpired pk (runCalls cfg s (moves ++ more)).store := by
  intro h
  obtain ⟨row, hrow, hshown⟩ := h {}
    { clock := 90, world := (), requests := [{
        pk := 1, kind := "deploy".toList, requestedBy := some 7, expiresAt := some 80, updatedAt := 0 }] }
    1 [] [.start (.cancel 1 { pk := some 7, isActive := true } [] []), .turn 0, .turn 0, .turn 0]
    ⟨_, rfl, by decide⟩
  cases hrow
  revert hshown
  decide

end CwStation.Approvals
