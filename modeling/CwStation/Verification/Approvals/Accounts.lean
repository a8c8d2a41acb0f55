import CwStation.Verification.Approvals.Decisions

/-! # What the winner of a request owes

A call that wins the claim of a request owes it a callback and a signal. -/

namespace CwStation.Approvals

open Tasks (Time)
open Scripts

variable {ω α β : Type} {cfg : Settings ω} {pk : ℕ} {kind : Str}

/-! ### Counting statements -/

def claims (pk : ℕ) : Event Answer → Bool
  | ⟨.claim k _, _⟩ => k = pk
  | _ => false

def wins (pk : ℕ) : Event Answer → Bool
  | ⟨.claim k _, updated⟩ => k = pk && updated
  | _ => false

def winsAny : Event Answer → Bool
  | ⟨.claim _ _, updated⟩ => updated
  | _ => false

def callsBack (pk : ℕ) : Event Answer → Bool
  | ⟨.callback copy, _⟩ => copy.pk = pk
  | _ => false

def signals (pk : ℕ) : Event Answer → Bool
  | ⟨.signal k _ _, _⟩ => k = pk
  | _ => false

/-- The loads of a request of this kind find it, and every load gives the row it asks for. -/
def Faithful (pk : ℕ) (kind : Str) (t : List (Event Answer)) : Prop :=
  ∀ k a, ⟨.load k, a⟩ ∈ t →
    (k = pk → a ≠ none) ∧ ∀ req, a = some req → req.pk = k ∧ (k = pk → req.kind = kind)

theorem Faithful.tail {e : Event Answer} {t : List (Event Answer)} (h : Faithful pk kind (e :: t)) :
    Faithful pk kind t := fun k a ha => h k a (List.mem_cons_of_mem _ ha)

theorem faithful_append {t t' : List (Event Answer)} :
    Faithful pk kind (t ++ t') ↔ Faithful pk kind t ∧ Faithful pk kind t' := by
  constructor
  · intro h
    exact ⟨fun k a ha => h k a (List.mem_append_left _ ha),
      fun k a ha => h k a (List.mem_append_right _ ha)⟩
  · rintro ⟨h, h'⟩ k a ha
    rcases List.mem_append.mp ha with ha | ha
    · exact h k a ha
    · exact h' k a ha

/-- How often the callback of a kind runs for a win. -/
def Settings.callbacks (cfg : Settings ω) (kind : Str) : ℕ := (cfg.callback kind).isSome.toNat

/-- One for the request itself. -/
def share (k pk : ℕ) : ℕ := if k = pk then 1 else 0

theorem share_of_ne {k : ℕ} (h : k ≠ pk) : share k pk = 0 := if_neg h

/-! ### Paying -/

/-- The trace pays for its wins and for the debts it has begun with, in full at its end. -/
def Pays (n pk c g : ℕ) (t : List (Event Answer)) (ended : Bool) : Prop :=
  t.countP (callsBack pk) ≤ n * t.countP (wins pk) + c ∧
  t.countP (signals pk) ≤ t.countP (wins pk) + g ∧
  (ended = true → t.countP (callsBack pk) = n * t.countP (wins pk) + c ∧
    t.countP (signals pk) = t.countP (wins pk) + g)

/-- A script that owes `c` callbacks and `g` signals for a request of this kind. -/
def Owes (cfg : Settings ω) (pk : ℕ) (kind : Str) (c g : ℕ) (p : Call α) : Prop :=
  p.Traces fun t r => Faithful pk kind t → Pays (cfg.callbacks kind) pk c g t r.isSome

theorem owes_ret (a : α) : Owes cfg pk kind 0 0 (pure a) := fun _ => by simp [Pays]

/-- What is paid first may be owed by the rest of a script. -/
theorem Owes.bind {c g : ℕ} {p : Call α} {f : α → Call β} (hp : Owes cfg pk kind c g p)
    (hf : ∀ a, Owes cfg pk kind 0 0 (f a)) : Owes cfg pk kind c g (p >>= f) := by
  refine Script.Traces.bind hp (fun t h => h) fun t a h => (hf a).mono fun t' r h' hfaithful => ?_
  obtain ⟨hcalls, hsignals, -⟩ := h' (faithful_append.mp hfaithful).2
  obtain ⟨-, -, hpaid⟩ := h (faithful_append.mp hfaithful).1
  obtain ⟨hcalls₀, hsignals₀⟩ := hpaid rfl
  simp only [Pays, List.countP_append, Nat.mul_add]
  refine ⟨by omega, by omega, ?_⟩
  intro hended
  obtain ⟨hcalls', hsignals'⟩ := (h' (faithful_append.mp hfaithful).2).2.2 hended
  exact ⟨by omega, by omega⟩

section statements

variable {c g : ℕ}

/-- A statement that counts for nothing. -/
theorem owes_perform {op : Statement} {f : Answer op → Call β}
    (hop : ∀ a, wins pk ⟨op, a⟩ = false ∧ callsBack pk ⟨op, a⟩ = false ∧ signals pk ⟨op, a⟩ = false)
    (hf : ∀ a, Faithful pk kind [⟨op, a⟩] → Owes cfg pk kind c g (f a)) :
    Owes cfg pk kind c g (perform op >>= f) := by
  refine Script.traces_perform_bind (fun _ => by simp [Pays]) fun a => ?_
  obtain ⟨hwins, hcalls, hsignals⟩ := hop a
  by_cases ha : Faithful pk kind [⟨op, a⟩]
  · refine (hf a ha).mono fun t r h hfaithful => ?_
    simpa [Pays, hwins, hcalls, hsignals] using h hfaithful.tail
  · refine Script.traces_of_forall _ fun t r hfaithful => absurd ?_ ha
    exact (faithful_append (t := [_]).mp hfaithful).1

/-- The callback of the request. -/
theorem owes_callback {req : ApprovalRequest} {f : Option Str → Call β}
    (hf : ∀ a, Owes cfg pk kind c g (f a)) :
    Owes cfg pk kind (share req.pk pk + c) g (perform (.callback req) >>= f) := by
  refine Script.traces_perform_bind (fun _ => by simp [Pays]) fun a => (hf a).mono ?_
  intro t r h hfaithful
  obtain ⟨hcalls, hsignals, hpaid⟩ := h hfaithful.tail
  by_cases hpk : req.pk = pk
  · simp only [Pays, List.countP_cons, callsBack, wins, signals, share, hpk, decide_true, if_true,
      Bool.false_eq_true, if_false, Nat.add_zero]
    refine ⟨by omega, by omega, fun hended => ?_⟩
    obtain ⟨h₁, h₂⟩ := hpaid hended
    exact ⟨by omega, by omega⟩
  · simpa [Pays, callsBack, wins, signals, share, hpk] using And.intro hcalls (And.intro hsignals hpaid)

theorem owes_signal {k : ℕ} {actor : Option ℕ} {source : Str} {f : Unit → Call β}
    (hf : ∀ a, Owes cfg pk kind c g (f a)) :
    Owes cfg pk kind c (share k pk + g) (perform (.signal k actor source) >>= f) := by
  refine Script.traces_perform_bind (fun _ => by simp [Pays]) fun a => (hf a).mono ?_
  intro t r h hfaithful
  obtain ⟨hcalls, hsignals, hpaid⟩ := h hfaithful.tail
  by_cases hpk : k = pk
  · simp only [Pays, List.countP_cons, callsBack, wins, signals, share, hpk, decide_true, if_true,
      Bool.false_eq_true, if_false, Nat.add_zero]
    refine ⟨by omega, by omega, fun hended => ?_⟩
    obtain ⟨h₁, h₂⟩ := hpaid hended
    exact ⟨by omega, by omega⟩
  · simpa [Pays, callsBack, wins, signals, share, hpk] using And.intro hcalls (And.intro hsignals hpaid)

/-- A claim that wins begins the debts. -/
theorem owes_claim {k : ℕ} {claim : Claim} {f : Bool → Call β}
    (hlost : Owes cfg pk kind c g (f false))
    (hwon : Owes cfg pk kind (share k pk * cfg.callbacks kind + c)
      (share k pk + g) (f true)) :
    Owes cfg pk kind c g (perform (.claim k claim) >>= f) := by
  refine Script.traces_perform_bind (fun _ => by simp [Pays]) fun a => ?_
  cases a with
  | false =>
    refine hlost.mono fun t r h hfaithful => ?_
    simpa [Pays, callsBack, wins, signals] using h hfaithful.tail
  | true =>
    refine hwon.mono fun t r h hfaithful => ?_
    obtain ⟨hcalls, hsignals, hpaid⟩ := h hfaithful.tail
    by_cases hpk : k = pk
    · simp only [share, hpk, if_true, Nat.one_mul] at hcalls hsignals hpaid
      simp only [Pays, List.countP_cons, callsBack, wins, signals, hpk, decide_true, Bool.and_true,
        if_true, Bool.false_eq_true, if_false, Nat.add_zero, Nat.mul_add, Nat.mul_one]
      refine ⟨by omega, by omega, fun hended => ?_⟩
      obtain ⟨h₁, h₂⟩ := hpaid hended
      exact ⟨by omega, by omega⟩
    · simpa [Pays, callsBack, wins, signals, share, hpk] using And.intro hcalls (And.intro hsignals hpaid)

end statements

/-! ### The services -/

section services

/-- The copy of a call that owes something is a row of this kind. -/
def Known (pk : ℕ) (kind : Str) (req : ApprovalRequest) : Prop := req.pk = pk → req.kind = kind

theorem Faithful.load {k : ℕ} {req : ApprovalRequest}
    (h : Faithful pk kind [⟨.load k, some req⟩]) : req.pk = k ∧ Known pk kind req := by
  obtain ⟨hpk, hkind⟩ := (h k (some req) List.mem_cons_self).2 req rfl
  exact ⟨hpk, fun h => hkind (hpk ▸ h)⟩

theorem Faithful.load_none {k : ℕ} (h : Faithful pk kind [⟨.load k, none⟩]) : k ≠ pk :=
  fun hk => (h k none List.mem_cons_self).1 hk rfl

theorem owes_finish {req : ApprovalRequest} (hreq : Known pk kind req) (actor : Option ℕ)
    (source : Str) :
    Owes cfg pk kind (share req.pk pk * cfg.callbacks kind)
      (share req.pk pk) (finish cfg req actor source) := by
  have hpublish : ∀ copy : ApprovalRequest, copy.pk = req.pk →
      Owes cfg pk kind 0 (share req.pk pk) (do
        perform (.save copy)
        perform (.log copy.pk actor source)
        perform (.signal copy.pk actor source)
        return (.ok copy : Except ApprovalError ApprovalRequest)) := by
    intro copy hcopy
    refine owes_perform (fun _ => ⟨rfl, rfl, rfl⟩) fun _ _ => ?_
    refine owes_perform (fun _ => ⟨rfl, rfl, rfl⟩) fun _ _ => ?_
    rw [← hcopy]
    exact owes_signal fun _ => owes_ret _
  unfold finish runCallback
  split
  · rename_i hnone
    have hn : share req.pk pk * cfg.callbacks kind = 0 := by
      by_cases hpk : req.pk = pk
      · rw [Settings.callbacks, ← hreq hpk, Option.isNone_iff_eq_none.mp hnone]
        rfl
      · rw [share_of_ne hpk, Nat.zero_mul]
    rw [hn]
    exact hpublish req rfl
  · rename_i hsome
    have hn : share req.pk pk * cfg.callbacks kind = share req.pk pk := by
      by_cases hpk : req.pk = pk
      · rw [Settings.callbacks, ← hreq hpk]
        cases hget : cfg.callback req.kind <;> simp_all
      · rw [share_of_ne hpk, Nat.zero_mul]
    rw [hn, Script.bind_assoc]
    refine owes_callback (c := 0) fun a => ?_
    cases a with
    | none => exact hpublish req rfl
    | some traceback =>
      refine owes_perform (fun _ => ⟨rfl, rfl, rfl⟩) fun _ _ => ?_
      refine owes_perform (fun _ => ⟨rfl, rfl, rfl⟩) fun a ha => ?_
      cases a with
      | none =>
        rw [share_of_ne ha.load_none]
        exact owes_ret _
      | some req' => exact hpublish req' ha.load.1

/-- A claim, and what is done where it has been won. -/
theorem owes_claimPending {k : ℕ} {claim : Claim}
    {f : Except ApprovalError ApprovalRequest → Call β}
    (hlost : ∀ e, Owes cfg pk kind 0 0 (f (.error e)))
    (hwon : ∀ req, Known pk kind req → Owes cfg pk kind
      (share req.pk pk * cfg.callbacks kind) (share req.pk pk) (f (.ok req))) :
    Owes cfg pk kind 0 0 (claimPending k claim >>= f) := by
  refine owes_claim ?_ ?_
  · refine owes_perform (fun _ => ⟨rfl, rfl, rfl⟩) fun a _ => ?_
    cases a with
    | none => exact hlost _
    | some req => exact hlost _
  · refine owes_perform (fun _ => ⟨rfl, rfl, rfl⟩) fun a ha => ?_
    cases a with
    | none =>
      rw [share_of_ne ha.load_none, Nat.zero_mul]
      exact hlost _
    | some req =>
      rw [← ha.load.1]
      exact hwon req ha.load.2

theorem owes_settle (k : ℕ) (status : Status) (terminal : status ≠ .pending) (actor : Actor)
    (note source : Str) :
    Owes cfg pk kind 0 0 (settle cfg k status terminal actor note source) := by
  refine owes_perform (fun _ => ⟨rfl, rfl, rfl⟩) fun now _ => ?_
  refine owes_claimPending (fun e => owes_ret _) fun req hreq => ?_
  exact owes_finish hreq actor.pk source

theorem owes_expireInstead (k : ℕ) : Owes cfg pk kind 0 0 (expireInstead cfg k) := by
  refine owes_perform (fun _ => ⟨rfl, rfl, rfl⟩) fun now _ => ?_
  refine owes_claimPending (fun e => owes_ret _) fun req hreq => ?_
  refine (owes_finish hreq none expiry).bind fun r => ?_
  cases r <;> exact owes_ret _

theorem owes_isOverdue (req : ApprovalRequest) : Owes cfg pk kind 0 0 (isOverdue req) := by
  unfold isOverdue
  split
  · exact owes_perform (fun _ => ⟨rfl, rfl, rfl⟩) fun now _ => owes_ret _
  · exact owes_ret _

theorem owes_eligible (user : Actor) (k : ℕ) (req : ApprovalRequest) :
    Owes cfg pk kind 0 0 (eligible cfg user k req) := by
  refine owes_perform (fun _ => ⟨rfl, rfl, rfl⟩) fun assignees _ => ?_
  split
  · exact owes_ret _
  · exact owes_perform (fun _ => ⟨rfl, rfl, rfl⟩) fun assignees _ => owes_ret _

theorem owes_canDecide (user : Actor) (req : ApprovalRequest) :
    Owes cfg pk kind 0 0 (canDecide cfg user req) := by
  unfold canDecide
  cases user.actingPk with
  | none => exact owes_ret _
  | some k =>
    dsimp only
    split
    · exact owes_ret _
    split
    · exact owes_ret _
    refine (owes_eligible user k req).bind fun ok => ?_
    cases ok <;> exact owes_ret _

theorem owes_decide (req : ApprovalRequest) (actor : Actor) (approved : Bool) (note source : Str) :
    Owes cfg pk kind 0 0 (Approvals.decide cfg req actor approved note source) := by
  unfold Approvals.decide
  split
  · exact owes_ret _
  refine (owes_isOverdue req).bind fun overdue => ?_
  split
  · exact owes_expireInstead req.pk
  split
  · exact owes_ret _
  refine (owes_canDecide actor req).bind fun ok => ?_
  split
  · exact owes_ret _
  · exact owes_settle req.pk _ _ actor note source

theorem owes_cancel (req : ApprovalRequest) (actor : Actor) (note source : Str) :
    Owes cfg pk kind 0 0 (cancel cfg req actor note source) := by
  unfold cancel
  split
  · exact owes_ret _
  split
  · exact owes_ret _
  · exact owes_settle req.pk _ _ actor note source

theorem owes_expireRow (now : Time) (k : ℕ) : Owes cfg pk kind 0 0 (expireRow cfg now k) := by
  refine owes_claim (owes_ret _) ?_
  refine owes_perform (fun _ => ⟨rfl, rfl, rfl⟩) fun a ha => ?_
  cases a with
  | none =>
    rw [share_of_ne ha.load_none, Nat.zero_mul]
    exact owes_ret _
  | some req =>
    rw [← ha.load.1]
    refine (owes_finish ha.load.2 none expiry).bind fun r => ?_
    cases r <;> exact owes_ret _

theorem owes_expireRows (now : Time) (pks : List ℕ) :
    Owes cfg pk kind 0 0 (expireRows cfg now pks) := by
  induction pks with
  | nil => exact owes_ret _
  | cons k pks ih =>
    refine (owes_expireRow now k).bind fun r => ?_
    cases r with
    | error e => exact owes_ret _
    | ok updated =>
      refine ih.bind fun r => ?_
      cases r <;> exact owes_ret _

theorem owes_markExpired (scope : ApprovalRequest → Bool) (limit : Option ℤ) :
    Owes cfg pk kind 0 0 (markExpired cfg scope limit) := by
  refine owes_perform (fun _ => ⟨rfl, rfl, rfl⟩) fun now _ => ?_
  refine owes_perform (fun _ => ⟨rfl, rfl, rfl⟩) fun overdue _ => ?_
  cases limit with
  | none => exact owes_expireRows now overdue
  | some limit =>
    dsimp only
    split <;> exact owes_expireRows now _

theorem owes_onRequest (k : ℕ)
    {body : ApprovalRequest → Call (Except ApprovalError ApprovalRequest)}
    (hbody : ∀ req, Owes cfg pk kind 0 0 (body req)) :
    Owes cfg pk kind 0 0 (onRequest k body) := by
  refine owes_perform (fun _ => ⟨rfl, rfl, rfl⟩) fun a _ => ?_
  cases a with
  | none => exact owes_ret _
  | some req => exact (hbody req).bind fun r => owes_ret _

/-- Every call pays for what it wins. -/
theorem owes_script (job : Job) : Owes cfg pk kind 0 0 (job.script cfg) := by
  cases job with
  | decide k actor approved note source =>
    exact owes_onRequest k fun req => owes_decide req actor approved note source
  | cancel k actor note source => exact owes_onRequest k fun req => owes_cancel req actor note source
  | markExpired scope limit => exact (owes_markExpired scope limit).bind fun r => owes_ret _
  | elapse d => exact owes_perform (fun _ => ⟨rfl, rfl, rfl⟩) fun _ _ => owes_ret _

end services

end CwStation.Approvals
