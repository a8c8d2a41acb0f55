import CwStation.Model.Filing
import CwStation.Verification.Approvals.Decisions

/-! # The cap on pending requests -/

namespace CwStation.Approvals

open Tasks (Time)
open Scripts

variable {ω α : Type} {cfg : Settings ω} {site : FilingSettings} {s : Store ω} {requester : ℕ}
  {kind : Str}

/-! ### What a statement does to the number of requests -/

theorem actionable_mono {now later : Time} {req : ApprovalRequest} (hle : now ≤ later)
    (h : req.actionable later = true) : req.actionable now = true := by
  simp only [ApprovalRequest.actionable, Bool.and_eq_true, Bool.not_eq_true'] at h ⊢
  refine ⟨h.1, Bool.eq_false_iff.mpr fun hover => ?_⟩
  rw [overdueAt_mono hle hover] at h
  cases h.2

theorem not_actionable {now : Time} {req : ApprovalRequest} (h : req.status ≠ .pending) :
    req.actionable now = false := by
  simp [ApprovalRequest.actionable, ApprovalRequest.isPending, h]

/-- The number of requests that are actionable now. -/
def Store.open (s : Store ω) (requester : ℕ) (kind : Str) : ℕ := s.outstanding s.clock requester kind

/-- No call on a request that is there makes another one actionable. -/
theorem open_exec (cfg : Settings ω) {op : Statement} (hop : Agrees s op) :
    (exec cfg op s).2.open requester kind ≤ s.open requester kind := by
  unfold Store.open Store.outstanding
  cases op with
  | now | load _ | assignees _ | overdue _ _ | log _ _ _ | signal _ _ _ => exact le_refl _
  | callback copy =>
    simp only [exec, Store.callback]
    split <;> exact le_refl _
  | claim pk claim =>
    simp only [exec]
    split
    · refine Table.countP_alter_le (fun _ h => h) fun r h => ?_
      have hstatus : (claim.apply r).status ≠ .pending := claim_status claim r ▸ claim.terminal
      rw [not_actionable hstatus] at h
      cases h
    · exact le_refl _
  | storeError pk traceback => exact Table.countP_alter_le (fun _ h => h) fun _ h => h
  | save copy =>
    obtain ⟨row, -, hstatus, hdecision⟩ := hop
    refine Table.countP_alter_le (fun _ h => h) fun r h => ?_
    have hcopy : row.status = copy.status := congrArg Prod.fst hdecision
    rw [hcopy] at hstatus
    simp [ApprovalRequest.actionable, ApprovalRequest.isPending, hstatus] at h
  | elapse d =>
    refine List.countP_mono_left fun r _ h => ?_
    rw [Bool.and_eq_true] at h ⊢
    exact ⟨actionable_mono (le_add_of_nonneg_right (Int.natCast_nonneg d)) h.1, h.2⟩

/-- The insert of a request that is actionable now, of this requester and kind. -/
def Inserts (requester : ℕ) (kind : Str) (now : Time) : Statement ⊕ FilingStatement → Prop
  | .inr (.insert kind' requester' expiresAt) =>
      requester' = some requester ∧ kind' = kind ∧ ∀ t ∈ expiresAt, now < t
  | _ => False

instance decidableInserts (requester : ℕ) (kind : Str) (now : Time) :
    ∀ op, Decidable (Inserts requester kind now op)
  | .inl _ => .isFalse id
  | .inr (.count _ _ _) => .isFalse id
  | .inr (.setAssignees _ _) => .isFalse id
  | .inr (.insert _ _ _) => inferInstanceAs (Decidable (_ ∧ _ ∧ _))

/-- Of all statements only such an insert makes the number grow, and by one. -/
theorem open_both (cfg : Settings ω) (requester : ℕ) (kind : Str) {op : Statement ⊕ FilingStatement}
    (hop : Beside Agrees s op) :
    (Inserts requester kind s.clock op ∧
        (both (exec cfg) execFiling op s).2.open requester kind = s.open requester kind + 1) ∨
      ¬ Inserts requester kind s.clock op ∧
        (both (exec cfg) execFiling op s).2.open requester kind ≤ s.open requester kind := by
  rcases op with op | op
  · exact .inr ⟨id, open_exec cfg hop⟩
  · cases op with
    | count now requester' kind' => exact .inr ⟨id, le_refl _⟩
    | setAssignees pk assignees =>
      exact .inr ⟨id, Table.countP_alter_le (fun _ h => h) fun _ h => h⟩
    | insert kind' requester' expiresAt =>
      have hcount : (both (exec cfg) execFiling
          (.inr (.insert kind' requester' expiresAt)) s).2.open requester kind =
            s.open requester kind +
              if requester' = some requester ∧ kind' = kind ∧ ∀ t ∈ expiresAt, s.clock < t then 1
              else 0 := by
        simp only [both, execFiling, Store.open, Store.outstanding, List.countP_append,
          List.countP_singleton]
        congr 2
        cases expiresAt <;>
          simp [ApprovalRequest.actionable, ApprovalRequest.overdueAt, ApprovalRequest.isPending,
            and_assoc, and_comm, and_left_comm]
      by_cases hinserts : requester' = some requester ∧ kind' = kind ∧ ∀ t ∈ expiresAt, s.clock < t
      · rw [if_pos hinserts] at hcount
        exact .inl ⟨hinserts, hcount⟩
      · rw [if_neg hinserts] at hcount
        exact .inr ⟨hinserts, hcount.le⟩

/-! ### All threads keep to it -/

/-- Decisions stay under all statements. -/
theorem decided_both (cfg : Settings ω) {op : Statement ⊕ FilingStatement} (hop : Beside Agrees s op)
    {pk : ℕ} {decision : Status × Option ℕ × Option Time × Str} (h : Decided pk decision s) :
    Decided pk decision (both (exec cfg) execFiling op s).2 := by
  rcases op with op | op
  · exact stable_decided decision s op h hop
  · obtain ⟨row, hrow, hstatus, hdecision⟩ := h
    cases op with
    | count now requester' kind' => exact ⟨row, hrow, hstatus, hdecision⟩
    | insert kind' requester' expiresAt =>
      exact ⟨row, Table.get_append_of_some _ hrow, hstatus, hdecision⟩
    | setAssignees k assignees =>
      refine ⟨_, request_alter (f := fun req => { req with assignees }) (fun _ => rfl) hrow k, ?_, ?_⟩
      · split <;> exact hstatus
      · split <;> exact hdecision

theorem Lasting.both {P : Store ω → Prop} (h : Lasting P) :
    Stable (both (exec cfg) execFiling) (Beside Agrees) P :=
  fun s _ hP hop => h s _ (fun _ _ hd => decided_both cfg hop hd) hP

section fits

variable {Q : α → Store ω → Prop}

theorem fits_ask (cfg : Settings ω) (op : Statement) (hop : ∀ s : Store ω, Agrees s op) :
    Fits (both (exec cfg) execFiling) (Beside Agrees) (ask op) (fun _ => True) fun _ _ => True :=
  fits_perform (fun _ => stable_const True) fun s _ => ⟨hop s, trivial⟩

theorem fits_file (cfg : Settings ω) (op : FilingStatement) :
    Fits (both (exec cfg) execFiling) (Beside Agrees) (file op) (fun _ => True) fun _ _ => True :=
  fits_perform (fun _ => stable_const True) fun _ _ => ⟨trivial, trivial⟩

theorem fits_checkPendingCap (actor : Actor) :
    Fits (both (exec cfg) execFiling) (Beside Agrees) (checkPendingCap site kind actor)
      (fun _ => True) fun _ _ => True := by
  unfold checkPendingCap
  cases actor.pk with
  | none => exact fun _ _ => trivial
  | some requester =>
    dsimp only
    split
    · exact fun _ _ => trivial
    · refine (fits_ask cfg .now fun _ => trivial).bind fun now => ?_
      refine (fits_file cfg _).bind fun outstanding => ?_
      split <;> exact fun _ _ => trivial

theorem fits_expiryOf (args : FilingArgs) :
    Fits (both (exec cfg) execFiling) (Beside Agrees) (expiryOf cfg site args)
      (fun _ => True) fun _ _ => True := by
  unfold expiryOf
  cases args.expiresAt with
  | some expiresAt => exact fun _ _ => trivial
  | none =>
    dsimp only
    split
    · exact fun _ _ => trivial
    · refine (fits_ask cfg .now fun _ => trivial).bind fun now => ?_
      exact fun _ _ => trivial

theorem fits_fileRequest (args : FilingArgs) :
    Fits (both (exec cfg) execFiling) (Beside Agrees) (fileRequest cfg site args)
      (fun _ => True) fun _ _ => True := by
  refine (fits_expiryOf args).bind fun expiresAt => ?_
  refine (fits_file cfg _).bind fun req => ?_
  have hassign : Fits (both (exec cfg) execFiling) (Beside Agrees) (assign req.pk args.assignees)
      (fun _ => True) fun _ _ => True := by
    unfold assign
    split
    · exact fun _ _ => trivial
    · exact fits_file cfg _
  refine hassign.bind fun _ => ?_
  refine (fits_ask cfg (.log req.pk args.actor.pk args.source) fun _ => trivial).bind fun _ => ?_
  exact fun _ _ => trivial

theorem fits_desk (cfg : Settings ω) (site : FilingSettings) (job : Job ⊕ FilingArgs) :
    Fits (both (exec cfg) execFiling) (Beside Agrees) (deskScript cfg site job)
      (fun _ => True) fun _ _ => True := by
  cases job with
  | inl job =>
    refine ((fitsIn_script job).embed fun _ => Lasting.both).bind fun r => ?_
    exact fun _ _ => trivial
  | inr args =>
    have hrequest : Fits (both (exec cfg) execFiling) (Beside Agrees) (requestApproval cfg site args)
        (fun _ => True) fun _ _ => True := by
      unfold requestApproval
      split
      · exact fun _ _ => trivial
      · refine (fits_checkPendingCap args.actor).bind fun r => ?_
        cases r with
        | error e => exact fun _ _ => trivial
        | ok _ =>
          dsimp only
          split
          · exact fun _ _ => trivial
          · exact fits_fileRequest args
    refine hrequest.bind fun r => ?_
    exact fun _ _ => trivial

end fits

/-- Every thread of a run keeps to what it promises. -/
theorem sound_runDesk (cfg : Settings ω) (site : FilingSettings) (s : Store ω)
    (moves : List (Move (Job ⊕ FilingArgs))) :
    Session.Sound (both (exec cfg) execFiling) (Beside Agrees) (fun _ => True)
      (runDesk cfg site s moves) := by
  have hstart : Session.Sound (both (exec cfg) execFiling) (Beside Agrees) (fun _ => True)
      ({ store := s } : Desk ω) := ⟨trivial, fun t ht => by cases ht⟩
  exact (hstart.run (J := fun _ _ => True) (stable_const True) (fits_desk cfg site) moves
    (Session.meets_true moves) (fun _ _ _ _ _ _ _ _ => trivial) trivial).1

/-! ### The cap -/

/-- No more requests are open than the cap allows. -/
def Within (site : FilingSettings) (requester : ℕ) (kind : Str) (s : Store ω) : Prop :=
  (s.open requester kind : ℤ) ≤ site.maxPending

/-- An insert that counts finds the number still below the cap. -/
def Roomy (site : FilingSettings) (requester : ℕ) (kind : Str)
    (_ : List (ℕ × Event (Sum.elim Answer FilingAnswer))) (s : Store ω)
    (op : Statement ⊕ FilingStatement) : Prop :=
  Inserts requester kind s.clock op → (s.open requester kind : ℤ) < site.maxPending

instance decidableRoomy (history : List (ℕ × Event (Sum.elim Answer FilingAnswer))) (s : Store ω)
    (op : Statement ⊕ FilingStatement) : Decidable (Roomy site requester kind history s op) :=
  inferInstanceAs (Decidable (_ → _))

theorem within_step {op : Statement ⊕ FilingStatement} (hop : Beside Agrees s op)
    (h : Within site requester kind s) :
    Within site requester kind (both (exec cfg) execFiling op s).2 ↔
      Roomy site requester kind [] s op := by
  unfold Within Roomy at *
  rcases open_both cfg requester kind hop with ⟨hinserts, hopen⟩ | ⟨hquiet, hopen⟩
  · rw [hopen]
    constructor
    · intro hle _
      omega
    · intro hroom
      have := hroom hinserts
      omega
  · constructor
    · exact fun _ hinserts => absurd hinserts hquiet
    · intro _
      omega

/-- Over a run the cap holds if and only if every insert still finds room. -/
theorem within_run (cfg : Settings ω) (site : FilingSettings) (s : Store ω) (requester : ℕ) (kind : Str)
    (moves : List (Move (Job ⊕ FilingArgs))) :
    (∀ a b, moves = a ++ b → Within site requester kind (runDesk cfg site s a).store) ↔
      Within site requester kind s ∧ Session.Meets (both (exec cfg) execFiling) (deskScript cfg site)
        (Roomy site requester kind) { store := s } moves := by
  rw [Session.meets_iff_forall]
  constructor
  · intro h
    refine ⟨h [] moves rfl, fun a move b hsplit op hop => ?_⟩
    have hbefore := h a (move :: b) hsplit
    have hafter := h (a ++ [move]) b (by rw [hsplit, List.append_assoc]; rfl)
    have hstep : (runDesk cfg site s (a ++ [move])).store =
        (both (exec cfg) execFiling op (runDesk cfg site s a).store).2 := by
      rw [runDesk, Session.run_append]
      exact Session.store_of_next _ _ hop
    rw [hstep] at hafter
    exact (within_step ((sound_runDesk cfg site s a).next hop) hbefore).mp hafter
  · rintro ⟨hstart, hroomy⟩ a
    induction a using List.reverseRecOn with
    | nil => exact fun _ _ => hstart
    | append_singleton a move ih =>
      intro b hsplit
      have hbefore := ih (move :: b) (by rw [hsplit, List.append_assoc]; rfl)
      rw [runDesk, Session.run_append]
      rcases Session.step_cases (both (exec cfg) execFiling) (deskScript cfg site)
        (runDesk cfg site s a) move with ⟨job, -, heq⟩ | ⟨i, job, op, k, -, -, hop, -⟩ | heq
      · exact (congrArg Session.store heq) ▸ hbefore
      · have hroom := hroomy a move b (by rw [hsplit, List.append_assoc]; rfl) op hop
        have hstep := Session.store_of_next (both (exec cfg) execFiling) (deskScript cfg site) hop
        exact hstep ▸ (within_step ((sound_runDesk cfg site s a).next hop) hbefore).mpr hroom
      · exact (congrArg Session.store heq) ▸ hbefore

/-! ### A count that is still right -/

/-- What an event has counted for this requester and kind. -/
def counted (requester : ℕ) (kind : Str) : Event (Sum.elim Answer FilingAnswer) → Option ℕ
  | ⟨.inr (.count _ requester' kind'), n⟩ =>
      if requester' = requester ∧ kind' = kind then some n else none
  | _ => none

/-- An event that has inserted a request of this requester and kind. -/
def inserted (requester : ℕ) (kind : Str) : Event (Sum.elim Answer FilingAnswer) → Bool
  | ⟨.inr (.insert kind' requester' _), _⟩ => requester' = some requester && kind' = kind
  | _ => false

/-- Before each insert for a requester and kind there is a count below the cap. -/
def Checked (site : FilingSettings) (requester : ℕ) (kind : Str)
    (t : List (Event (Sum.elim Answer FilingAnswer))) : Prop :=
  ∀ a e b, t = a ++ e :: b → inserted requester kind e = true →
    ∃ x ∈ a, ∃ n, counted requester kind x = some n ∧ (n : ℤ) < site.maxPending

/-- No insert for the requester and kind. -/
def Quiet (requester : ℕ) (kind : Str) (t : List (Event (Sum.elim Answer FilingAnswer))) : Prop :=
  ∀ e ∈ t, inserted requester kind e = false

theorem Quiet.checked {t : List (Event (Sum.elim Answer FilingAnswer))} (h : Quiet requester kind t) :
    Checked site requester kind t := by
  intro a e b hsplit hinserted
  rw [h e (by simp [hsplit])] at hinserted
  cases hinserted

/-- Behind a count below the cap inserts are checked. -/
theorem checked_of_count {t t' : List (Event (Sum.elim Answer FilingAnswer))}
    (hquiet : Quiet requester kind t)
    (hcount : ∃ x ∈ t, ∃ n, counted requester kind x = some n ∧ (n : ℤ) < site.maxPending) :
    Checked site requester kind (t ++ t') := by
  intro a e b hsplit hinserted
  rcases List.append_eq_append_iff.mp hsplit with ⟨c, rfl, -⟩ | ⟨c, rfl, hc⟩
  · obtain ⟨x, hx, hn⟩ := hcount
    exact ⟨x, List.mem_append_left _ hx, hn⟩
  · cases c with
    | nil =>
      obtain ⟨x, hx, hn⟩ := hcount
      exact ⟨x, by simpa using hx, hn⟩
    | cons e' c =>
      obtain ⟨rfl, -⟩ := List.cons.inj hc
      rw [hquiet e (by simp)] at hinserted
      cases hinserted

/-- A check that has passed for a requester has counted less than the cap. -/
theorem traces_checkPendingCap (hcap : 0 < site.maxPending) (requester : ℕ) (kind' : Str)
    (actor : Actor) :
    (checkPendingCap site kind actor).Traces fun t r => Quiet requester kind' t ∧
      (r = some (.ok ()) → actor.pk = some requester →
        ∃ x ∈ t, ∃ n, counted requester kind x = some n ∧ (n : ℤ) < site.maxPending) := by
  have hquiet : Quiet requester kind' [] := fun e he => by cases he
  unfold checkPendingCap
  cases hpk : actor.pk with
  | none => exact ⟨hquiet, fun _ h => by cases h⟩
  | some pk =>
    dsimp only
    rw [if_neg (not_le.mpr hcap)]
    refine ⟨⟨hquiet, fun h => by cases h⟩, fun now => ⟨⟨?_, fun h => by cases h⟩, fun (n : ℕ) => ?_⟩⟩
    · intro e he
      rw [List.mem_singleton.mp he]
      rfl
    · have hquiet' : Quiet requester kind' [⟨.inl .now, now⟩, ⟨.inr (.count now pk kind), n⟩] := by
        intro e he
        rcases List.mem_cons.mp he with rfl | he
        · rfl
        · rw [List.mem_singleton.mp he]
          rfl
      change Script.Traces (if site.maxPending ≤ (n : ℤ) then _ else _) _
      split
      · exact ⟨hquiet', fun h => by cases h⟩
      · rename_i hlt
        refine ⟨hquiet', fun _ heq => ⟨_, List.mem_cons_of_mem _ List.mem_cons_self, n, ?_, not_le.mp hlt⟩⟩
        simp [counted, Option.some.inj heq]

theorem quiet_bind {β : Type} {p : Filing α} {f : α → Filing β}
    (hp : p.Traces fun t _ => Quiet requester kind t)
    (hf : ∀ a, (f a).Traces fun t _ => Quiet requester kind t) :
    (p >>= f).Traces fun t _ => Quiet requester kind t := by
  refine hp.bind (fun t h => h) fun t a h => (hf a).mono fun t' r h' e he => ?_
  rcases List.mem_append.mp he with he | he
  · exact h e he
  · exact h' e he

theorem quiet_ret (a : α) : (pure a : Filing α).Traces fun t _ => Quiet requester kind t :=
  fun e he => by cases he

theorem quiet_perform {op : Statement ⊕ FilingStatement}
    (hop : ∀ a, inserted requester kind ⟨op, a⟩ = false) :
    (Script.perform op : Filing (Sum.elim Answer FilingAnswer op)).Traces
      fun t _ => Quiet requester kind t := by
  refine ⟨fun e he => (by cases he), fun a e he => ?_⟩
  rw [List.mem_singleton.mp he]
  exact hop a

/-- A filing for somebody else, or of another kind. -/
theorem quiet_fileRequest {args : FilingArgs}
    (h : ¬ (args.actor.pk = some requester ∧ args.kind = kind)) :
    (fileRequest cfg site args).Traces fun t _ => Quiet requester kind t := by
  have hexpiry : (expiryOf cfg site args).Traces fun t _ => Quiet requester kind t := by
    unfold expiryOf
    cases args.expiresAt with
    | some expiresAt => exact quiet_ret _
    | none =>
      dsimp only
      split
      · exact quiet_ret _
      · exact quiet_bind (quiet_perform fun _ => rfl) fun now => quiet_ret _
  refine quiet_bind hexpiry fun expiresAt => quiet_bind (quiet_perform fun req => ?_) fun req =>
    quiet_bind ?_ fun _ => quiet_bind (quiet_perform fun _ => rfl) fun _ => quiet_ret _
  · simpa [inserted] using h
  · unfold assign
    split
    · exact quiet_ret _
    · exact quiet_perform fun _ => rfl

theorem traces_requestApproval (hcap : 0 < site.maxPending) (args : FilingArgs) :
    (requestApproval cfg site args).Traces fun t _ => Checked site requester kind t := by
  have hnil : Quiet requester kind [] := fun e he => by cases he
  unfold requestApproval
  split
  · exact hnil.checked
  · refine (traces_checkPendingCap hcap requester kind args.actor).bind
      (fun t h => h.1.checked) fun t r h => ?_
    cases r with
    | error e =>
      change Checked site requester kind (t ++ [])
      rw [List.append_nil]
      exact h.1.checked
    | ok _ =>
      dsimp only
      split
      · change Checked site requester kind (t ++ [])
        rw [List.append_nil]
        exact h.1.checked
      · by_cases hmine : args.actor.pk = some requester ∧ args.kind = kind
        · refine Script.traces_of_forall _ fun t' _ => checked_of_count h.1 ?_
          rw [← hmine.2]
          exact h.2 rfl hmine.1
        · refine (quiet_fileRequest hmine).mono fun t' _ h' => Quiet.checked fun e he => ?_
          rcases List.mem_append.mp he with he | he
          · exact h.1 e he
          · exact h' e he

/-- Whatever a thread does, it has counted before it inserts. -/
theorem traces_desk (hcap : 0 < site.maxPending) (requester : ℕ) (kind : Str) (cfg : Settings ω)
    (job : Job ⊕ FilingArgs) :
    (deskScript cfg site job).Traces fun t _ => Checked site requester kind t := by
  cases job with
  | inl job =>
    have hquiet : ((job.script cfg).embed FilingStatement FilingAnswer).Traces
        fun t _ => Quiet requester kind t := by
      refine (traces_embed _).mono fun t _ h e he => ?_
      obtain ⟨op, a, rfl⟩ := h e he
      rfl
    exact (quiet_bind hquiet fun _ => quiet_ret _).mono fun t _ h => h.checked
  | inr args =>
    refine (traces_requestApproval hcap args).bind (fun t h => h) fun t r h => ?_
    change Checked site requester kind (t ++ [])
    rw [List.append_nil]
    exact h

/-- A thread that inserts finds no more requests open than it has counted. -/
def Unspoiled (requester : ℕ) (kind : Str) (y : Desk ω) (move : Move (Job ⊕ FilingArgs)) : Prop :=
  ∀ i, move = .turn i → ∀ op ∈ y.next move, Inserts requester kind y.store.clock op →
    ∀ x ∈ y.trace i, ∀ n, counted requester kind x = some n → y.store.open requester kind ≤ n

theorem inserted_of_inserts {now : Time} {op : Statement ⊕ FilingStatement}
    (h : Inserts requester kind now op) (a : Sum.elim Answer FilingAnswer op) :
    inserted requester kind ⟨op, a⟩ = true := by
  rcases op with op | op
  · exact h.elim
  · cases op with
    | insert kind' requester' expiresAt => simp [inserted, h.1, h.2.1]
    | count now' requester' kind' => exact h.elim
    | setAssignees pk assignees => exact h.elim

/-- Where the count of a filing is still right, its insert finds room. -/
theorem roomy_of_unspoiled (hcap : 0 < site.maxPending) (a : List (Move (Job ⊕ FilingArgs)))
    (move : Move (Job ⊕ FilingArgs)) (h : Unspoiled requester kind (runDesk cfg site s a) move)
    (op : Statement ⊕ FilingStatement) (hop : op ∈ (runDesk cfg site s a).next move) :
    Roomy site requester kind (runDesk cfg site s a).history (runDesk cfg site s a).store op := by
  intro hinserts
  rcases Session.step_cases (both (exec cfg) execFiling) (deskScript cfg site)
    (runDesk cfg site s a) move with ⟨job, rfl, -⟩ | ⟨i, job, op', k, rfl, hi, hnext, heq⟩ | heq
  · cases hop
  · obtain rfl : op' = op := Option.some.inj (hnext.symm.trans hop)
    have hrun : runDesk cfg site s (a ++ [.turn i]) = _ := (Session.run_append a [.turn i]).trans heq
    have hlt : i < (runDesk cfg site s a).threads.length := (List.getElem?_eq_some_iff.mp hi).1
    have hthread := congrArg (fun y : Desk ω => y.threads[i]?) hrun
    simp only [List.getElem?_set_self hlt] at hthread
    have htrace := congrArg (fun y : Desk ω => y.trace i) hrun
    simp only [Session.trace_append, if_true] at htrace
    have hchecked := Session.traced s (a ++ [.turn i]) hthread
      (traces_desk hcap requester kind cfg job)
    obtain ⟨x, hx, n, hn, hlt⟩ := hchecked _ _ [] htrace (inserted_of_inserts hinserts _)
    have hle := h i rfl op' hop hinserts x hx n hn
    omega
  · obtain ⟨i, hi⟩ := Session.history_of_next (both (exec cfg) execFiling) (deskScript cfg site) hop
    rw [heq] at hi
    simp at hi

/-- The cap holds over a run if and only if every insert still finds room; and it does find room
where no filing finds more requests open at its insert than at its count. -/
theorem pending_cap (cfg : Settings ω) (site : FilingSettings) (s : Store ω) (requester : ℕ) (kind : Str)
    (moves : List (Move (Job ⊕ FilingArgs))) (hcap : 0 < site.maxPending)
    (hstart : Within site requester kind s) :
    ((∀ a b, moves = a ++ b → Within site requester kind (runDesk cfg site s a).store) ↔
      Session.Meets (both (exec cfg) execFiling) (deskScript cfg site) (Roomy site requester kind)
        { store := s } moves) ∧
    ((∀ a move b, moves = a ++ move :: b → Unspoiled requester kind (runDesk cfg site s a) move) →
      ∀ a b, moves = a ++ b → Within site requester kind (runDesk cfg site s a).store) := by
  have hiff := within_run cfg site s requester kind moves
  refine ⟨hiff.trans (and_iff_right hstart), fun h => hiff.mpr ⟨hstart, ?_⟩⟩
  exact Session.meets_iff_forall.mpr fun a move b hsplit op hop =>
    roomy_of_unspoiled hcap a move (h a move b hsplit) op hop

/-- A cap of one. -/
def strictSite : FilingSettings where
  maxPending := 1
  repr kind := kind

def agentFiling : FilingArgs where
  kind := "calendar.publish".toList
  actor := { pk := some 7, isActive := true }

def emptyDesk : Store Unit where
  clock := 0
  requests := []
  world := ()

/-- One filing after the other: the clock, the count, the insert, the audit row; then the clock and
a count that refuses. -/
def inTurns : List (Move (Job ⊕ FilingArgs)) :=
  [.start (.inr agentFiling), .turn 0, .turn 0, .turn 0, .turn 0,
    .start (.inr agentFiling), .turn 1, .turn 1]

/-- Both filings count before one of them inserts. -/
def atOnce : List (Move (Job ⊕ FilingArgs)) :=
  [.start (.inr agentFiling), .start (.inr agentFiling), .turn 0, .turn 0, .turn 1, .turn 1,
    .turn 0, .turn 1]

theorem inTurns_within : Within strictSite 7 agentFiling.kind emptyDesk ∧
    ∀ a b, inTurns = a ++ b →
      Within strictSite 7 agentFiling.kind (runDesk {} strictSite emptyDesk a).store := by
  have hstart : Within strictSite 7 agentFiling.kind emptyDesk := by
    unfold Within
    decide
  refine ⟨hstart, (pending_cap {} strictSite emptyDesk 7 agentFiling.kind inTurns (by decide)
    hstart).1.mpr ?_⟩
  decide

/-- Then there are two. -/
theorem atOnce_exceeds : ¬ ∀ a b, atOnce = a ++ b →
    Within strictSite 7 agentFiling.kind (runDesk {} strictSite emptyDesk a).store := by
  intro h
  have hwithin := h atOnce [] (List.append_nil _).symm
  unfold Within at hwithin
  exact absurd hwithin (by decide)

end CwStation.Approvals
