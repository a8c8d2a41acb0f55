import Mathlib.Data.List.Chain
import CwStation.Model.Deliveries
import CwStation.Verification.Webhooks.Deliveries

/-! # Webhook deliveries under concurrent ticks

A delivery is handed on by one token: its cursor, a claim that has still to enqueue, or its send
task. Who enqueues has the token from a create or a claim. -/

namespace CwStation.Webhooks

open Tasks (Time)
open Scripts

variable {cfg : Settings} {s : Store}

/-! ### Nothing in between

A job that no other one interrupts is the event of a run. -/

theorem eval_createDelivery (accepted : Bool) (make : ℕ → WebhookDelivery) (s : Store) :
    (createDelivery accepted make).eval (exec cfg) s = ((), s.createDelivery accepted make) := rfl

theorem eval_fanOutLoop (make : WebhookEndpoint → ℕ → WebhookDelivery)
    (endpoints : List WebhookEndpoint) (answers : List Bool) (s : Store) :
    (fanOutLoop make endpoints answers).eval (exec cfg) s =
      Store.fanOutLoop make endpoints answers s := by
  induction endpoints generalizing answers s with
  | nil => rfl
  | cons ep endpoints ih =>
    cases answers with
    | nil => rfl
    | cons accepted answers =>
      rw [fanOutLoop, Script.eval_bind, eval_createDelivery, Script.eval_bind, ih]
      rfl

theorem eval_claimDelivery (accepted : Bool) (d : WebhookDelivery) (s : Store) :
    (claimDelivery accepted d).eval (exec cfg) s =
      s.claimDelivery accepted d.pk d.nextAttemptAt := by
  rw [claimDelivery, Script.eval_perform_bind, exec, Store.claimDelivery]
  split <;> rfl

theorem eval_claimLoop (due : List WebhookDelivery) (answers : List Bool) (s : Store) :
    (claimLoop due answers).eval (exec cfg) s = Store.claimLoop due answers s := by
  induction due generalizing answers s with
  | nil => rfl
  | cons d due ih =>
    cases answers with
    | nil => rfl
    | cons accepted answers =>
      rw [claimLoop, Script.eval_bind, eval_claimDelivery, Script.eval_bind, ih]
      rfl

theorem eval_fanOut (eventType payload : Str) (eventId : Option Str) (answers : List Bool) (s : Store) :
    ((Job.fanOut eventType payload eventId answers).script cfg).eval (exec cfg) s =
      ((), s.step cfg (.fanOut eventType payload eventId answers)) := by
  rw [Job.script, Script.eval_bind, fanOut, Store.step, Store.fanOut]
  split
  · rfl
  · rw [Script.eval_perform_bind, eval_fanOutLoop]
    rfl

theorem eval_replay (pk : ℕ) (accepted : Bool) (s : Store) :
    ((Job.replay pk accepted).script cfg).eval (exec cfg) s =
      ((), s.step cfg (.replay pk accepted)) := by
  rw [Job.script, replayDelivery, Script.eval_perform_bind, exec, Store.step]
  cases s.delivery pk <;> rfl

theorem eval_tick (now : Time) (limit : ℕ) (answers : List Bool) (s : Store) :
    ((Job.tick now limit answers).script cfg).eval (exec cfg) s =
      ((), s.step cfg (.tick now limit answers)) := by
  rw [Job.script, Script.eval_bind, runDueDeliveries, Store.step, Store.runDueDeliveries]
  split
  · rfl
  · rw [Script.eval_perform_bind, eval_claimLoop]
    rfl

/-! ### Tokens -/

/-- Who takes a token: a create, or a claim that has won. -/
def takes : Scripts.Event Answer → Option ℕ
  | ⟨.create _, pk⟩ => some pk
  | ⟨.claim pk _, true⟩ => some pk
  | _ => none

/-- Who gives a token to the queue. -/
def gives : Scripts.Event Answer → Option ℕ
  | ⟨.enqueue pk _, _⟩ => some pk
  | _ => none

abbrev CoversTokens {α : Type} (p : Call α) : Prop := Script.Covers takes gives [] p

/-- A statement that handles no token. -/
theorem covers_quiet {α : Type} {op : Statement} {f : Answer op → Call α}
    (hop : ∀ a, takes ⟨op, a⟩ = none ∧ gives ⟨op, a⟩ = none) (hf : ∀ a, CoversTokens (f a)) :
    CoversTokens (perform op >>= f) := by
  apply Script.covers_perform Script.covered_nil
  intro a
  exact (hf a).quiet (hop a).1 (hop a).2

/-- What takes a token may give it to the queue. -/
theorem covers_enqueue {α : Type} {e : Scripts.Event Answer} {pk : ℕ} {accepted : Bool} {p : Call α}
    (htakes : takes e = some pk) (hgives : gives e = none) (hp : CoversTokens p) :
    Script.Covers takes gives [e] (perform (.enqueue pk accepted) >>= fun _ => p) := by
  apply Script.covers_perform
  · intro k
    simp [hgives]
  · intro a
    apply hp.behind
    intro k
    have henqueue : gives ⟨.enqueue pk accepted, a⟩ = some pk := rfl
    simp only [List.singleton_append, List.countP_cons, List.countP_nil, htakes, hgives, henqueue]
    by_cases hk : pk = k <;> simp [hk]

theorem covers_createDelivery (accepted : Bool) (make : ℕ → WebhookDelivery) :
    CoversTokens (createDelivery accepted make) := by
  apply Script.covers_perform Script.covered_nil
  intro pk
  exact covers_enqueue (p := pure ()) rfl rfl (Script.covers_ret ())

theorem covers_fanOutLoop (make : WebhookEndpoint → ℕ → WebhookDelivery)
    (endpoints : List WebhookEndpoint) (answers : List Bool) :
    CoversTokens (fanOutLoop make endpoints answers) := by
  induction endpoints generalizing answers with
  | nil => exact Script.covers_ret _
  | cons ep endpoints ih =>
    cases answers with
    | nil => exact Script.covers_ret _
    | cons accepted answers =>
      apply (covers_createDelivery accepted (make ep)).bind
      intro _
      apply (ih answers).bind
      intro _
      exact Script.covers_ret _

theorem covers_claimDelivery (accepted : Bool) (d : WebhookDelivery) :
    CoversTokens (claimDelivery accepted d) := by
  apply Script.covers_perform Script.covered_nil
  intro won
  cases won with
  | true => exact covers_enqueue rfl rfl (Script.covers_ret _)
  | false => exact (Script.covers_ret (0 : ℕ)).quiet rfl rfl

theorem covers_claimLoop (due : List WebhookDelivery) (answers : List Bool) :
    CoversTokens (claimLoop due answers) := by
  induction due generalizing answers with
  | nil => exact Script.covers_ret _
  | cons d due ih =>
    cases answers with
    | nil => exact Script.covers_ret _
    | cons accepted answers =>
      apply (covers_claimDelivery accepted d).bind
      intro _
      apply (ih answers).bind
      intro _
      exact Script.covers_ret _

theorem covers_script (job : Job) : CoversTokens (job.script cfg) := by
  cases job with
  | fanOut eventType payload eventId answers =>
    refine Script.Covers.bind ?_ fun _ => Script.covers_ret _
    unfold fanOut
    split
    · exact Script.covers_ret _
    · exact covers_quiet (fun _ => ⟨rfl, rfl⟩) fun _ => covers_fanOutLoop _ _ _
  | replay pk accepted =>
    apply covers_quiet fun _ => ⟨rfl, rfl⟩
    intro original
    cases original with
    | none => exact Script.covers_ret _
    | some original => exact covers_createDelivery _ _
  | tick now limit answers =>
    refine Script.Covers.bind ?_ fun _ => Script.covers_ret _
    unfold runDueDeliveries
    split
    · exact Script.covers_ret _
    · exact covers_quiet (fun _ => ⟨rfl, rfl⟩) fun _ => covers_claimLoop _ _
  | send task ending now =>
    apply covers_quiet fun _ => ⟨rfl, rfl⟩
    intro goes
    cases goes with
    | true => exact covers_quiet (fun _ => ⟨rfl, rfl⟩) fun _ => Script.covers_ret _
    | false => exact Script.covers_ret _

/-! ### What everyone keeps to -/

/-- A delivery begins untried, and a tick has observed a cursor. -/
def Guarded : Statement → Prop
  | .create make => ∀ pk, (make pk).status = .pending ∧ (make pk).attempt = 0 ∧
      (make pk).nextAttemptAt = none
  | .claim _ observed => observed.isSome = true
  | _ => True

abbrev Keeps {α : Type} (cfg : Settings) (p : Call α) : Prop :=
  Fits (exec cfg) (fun _ op => Guarded op) p (fun _ => True) fun _ _ => True

theorem keeps_statement {α : Type} {op : Statement} {f : Answer op → Call α} (hop : Guarded op)
    (hf : ∀ a, Keeps cfg (f a)) : Keeps cfg (perform op >>= f) :=
  (fits_perform (fun _ => stable_const True) fun _ _ => ⟨hop, trivial⟩).bind hf

theorem keeps_ret {α : Type} (a : α) : Keeps cfg (pure a : Call α) := fits_ret fun _ _ => trivial

theorem keeps_createDelivery {accepted : Bool} {make : ℕ → WebhookDelivery}
    (hmake : Guarded (.create make)) : Keeps cfg (createDelivery accepted make) := by
  apply keeps_statement hmake
  intro pk
  exact keeps_statement (f := pure) trivial keeps_ret

theorem keeps_fanOutLoop {make : WebhookEndpoint → ℕ → WebhookDelivery}
    (hmake : ∀ ep, Guarded (.create (make ep))) (endpoints : List WebhookEndpoint)
    (answers : List Bool) : Keeps cfg (fanOutLoop make endpoints answers) := by
  induction endpoints generalizing answers with
  | nil => exact keeps_ret _
  | cons ep endpoints ih =>
    cases answers with
    | nil => exact keeps_ret _
    | cons accepted answers =>
      apply (keeps_createDelivery (hmake ep)).bind
      intro _
      apply (ih answers).bind
      intro _
      exact keeps_ret _

theorem keeps_claimLoop {due : List WebhookDelivery}
    (hdue : ∀ d ∈ due, d.nextAttemptAt.isSome = true) (answers : List Bool) :
    Keeps cfg (claimLoop due answers) := by
  induction due generalizing answers with
  | nil => exact keeps_ret _
  | cons d due ih =>
    cases answers with
    | nil => exact keeps_ret _
    | cons accepted answers =>
      have hclaim : Keeps cfg (claimDelivery accepted d) := by
        refine keeps_statement (by exact hdue d List.mem_cons_self) fun won => ?_
        cases won with
        | true => exact keeps_statement trivial fun _ => keeps_ret _
        | false => exact keeps_ret _
      apply hclaim.bind
      intro _
      apply (ih (fun d hd => hdue d (List.mem_cons_of_mem _ hd)) answers).bind
      intro _
      exact keeps_ret _

theorem dueDeliveries_isSome {now : Time} {limit : ℕ} :
    ∀ d ∈ s.dueDeliveries now limit, d.nextAttemptAt.isSome = true := by
  intro d hd
  have hmem := List.mem_mergeSort.mp (List.mem_of_mem_take hd)
  have hdue := (List.mem_filter.mp hmem).2
  cases hnext : d.nextAttemptAt with
  | none => simp [WebhookDelivery.due, hnext] at hdue
  | some next => rfl

theorem keeps_script (job : Job) : Keeps cfg (job.script cfg) := by
  cases job with
  | fanOut eventType payload eventId answers =>
    refine Fits.bind (Q := fun _ _ => True) ?_ fun _ => keeps_ret _
    unfold fanOut
    split
    · exact keeps_ret _
    · exact keeps_statement trivial fun _ => keeps_fanOutLoop (fun _ _ => ⟨rfl, rfl, rfl⟩) _ _
  | replay pk accepted =>
    refine keeps_statement (by trivial) fun original => ?_
    cases original with
    | none => exact keeps_ret _
    | some original => exact keeps_createDelivery fun _ => ⟨rfl, rfl, rfl⟩
  | tick now limit answers =>
    refine Fits.bind (Q := fun _ _ => True) ?_ fun _ => keeps_ret _
    unfold runDueDeliveries
    split
    · exact keeps_ret _
    · have hread : Fits (exec cfg) (fun _ op => Guarded op) (perform (.due now limit))
          (fun _ => True) fun due _ => True ∧ ∀ d ∈ due, d.nextAttemptAt.isSome = true :=
        fits_perform (fun _ => stable_const _) fun _ _ => ⟨trivial, trivial, dueDeliveries_isSome⟩
      exact hread.bind fun due => fits_assume fun hdue => keeps_claimLoop hdue answers
  | send task ending now =>
    refine keeps_statement (by trivial) fun goes => ?_
    cases goes with
    | true => exact keeps_statement trivial fun _ => keeps_ret _
    | false => exact keeps_ret _

/-! ### Accounts -/

/-- What happens to a cursor. -/
inductive Mark
  | scheduled
  | claimed
  deriving DecidableEq

/-- What an event does to the cursor of a delivery. -/
def markOf (pk : ℕ) : Scripts.Event Answer → Option Mark
  | ⟨.claim k _, true⟩ => if k = pk then some .claimed else none
  | ⟨.finish _ _ _, some copy⟩ => if copy.pk = pk ∧ copy.status = .retrying then some .scheduled else none
  | _ => none

section accounts

variable (pk : ℕ) (history : List (ℕ × Scripts.Event Answer))

def taken : ℕ := (history.map (·.2)).countP fun e => takes e = some pk

def given : ℕ := (history.map (·.2)).countP fun e => gives e = some pk

def marks : List Mark := history.filterMap fun e => markOf pk e.2

variable {pk history} {i : ℕ} {e : Scripts.Event Answer}

theorem taken_append :
    taken pk (history ++ [(i, e)]) = taken pk history + if takes e = some pk then 1 else 0 := by
  rw [taken, taken, List.map_append, List.countP_append]
  simp [List.countP_cons]

theorem given_append :
    given pk (history ++ [(i, e)]) = given pk history + if gives e = some pk then 1 else 0 := by
  rw [given, given, List.map_append, List.countP_append]
  simp [List.countP_cons]

theorem marks_append : marks pk (history ++ [(i, e)]) = marks pk history ++ (markOf pk e).toList := by
  rw [marks, marks, List.filterMap_append]
  cases h : markOf pk e <;> simp [h]

end accounts

namespace Store

/-- The send tasks of a delivery that are enqueued or running. -/
def sends (pk : ℕ) (s : Store) : ℕ := s.queue.countP fun t => t.delivery = pk

def pending (pk : ℕ) (s : Store) : ℕ :=
  if (s.delivery pk).any fun d => d.status = .pending then 1 else 0

theorem pending_le (pk : ℕ) (s : Store) : s.pending pk ≤ 1 := by
  unfold pending
  split <;> omega

end Store

/-! ### The invariant -/

/-- A cursor goes with a retry, and a delivery that is not done has an attempt left. -/
structure Sane (d : WebhookDelivery) : Prop where
  cursor : d.nextAttemptAt.isSome = true ↔ d.status = .retrying
  attempt : d.attempt ≤ max 1 d.maxAttempts
  left : d.isTerminal = false → d.attempt < max 1 d.maxAttempts

/-- Each token is held once: the delivery is pending while a claim or a send holds it. -/
structure Owned (history : List (ℕ × Scripts.Event Answer)) (s : Store) : Prop where
  keyed : Keyed s
  covered : Script.Covered takes gives (history.map (·.2))
  fresh : ∀ pk, s.nextPk ≤ pk → taken pk history = 0 ∧ s.sends pk = 0 ∧ marks pk history = []
  held : ∀ pk, taken pk history + s.sends pk ≤ given pk history + s.pending pk
  rows : ∀ d ∈ s.deliveries, Sane d
  cursors : ∀ d ∈ s.deliveries,
    d.nextAttemptAt.isSome = true ↔ (marks d.pk history).getLast? = some .scheduled
  loaded : ∀ t ∈ s.queue, ∀ c, t.loaded = some c → s.delivery t.delivery = some c
  alternates : ∀ pk, (marks pk history).IsChain (· ≠ ·)

section owned

variable {history : List (ℕ × Scripts.Event Answer)} {i : ℕ} {e : Scripts.Event Answer}
  {d : WebhookDelivery} {t : SendTask} {pk : ℕ}

theorem Owned.given_le (h : Owned history s) (pk : ℕ) : given pk history ≤ taken pk history :=
  h.covered pk

theorem Store.sends_pos (ht : t ∈ s.queue) : 1 ≤ s.sends t.delivery :=
  List.countP_pos_iff.mpr ⟨t, ht, decide_eq_true rfl⟩

theorem Owned.sends_le (h : Owned history s) (pk : ℕ) : s.sends pk ≤ s.pending pk := by
  have := h.held pk
  have := h.given_le pk
  omega

theorem Store.pending_eq_one (hd : s.delivery pk = some d) (hpending : 1 ≤ s.pending pk) :
    d.status = .pending := by
  by_contra hne
  simp [Store.pending, hd, hne] at hpending

theorem Store.pending_eq_zero (hd : s.delivery pk = some d) (hne : d.status ≠ .pending) :
    s.pending pk = 0 := by
  simp [Store.pending, hd, hne]

theorem Owned.lt_nextPk (h : Owned history s) (hd : s.delivery pk = some d) : pk < s.nextPk := by
  have := h.keyed.nextPk d (Table.get_mem hd)
  rwa [Table.key_of_get hd] at this

/-- What is neither a token nor a cursor leaves the accounts alone. -/
theorem Owned.quiet (h : Owned history s) (htakes : takes e = none) (hgives : gives e = none)
    (hmark : ∀ pk, markOf pk e = none) : Owned (history ++ [(i, e)]) s := by
  have htaken : ∀ pk, taken pk (history ++ [(i, e)]) = taken pk history := by
    intro pk
    simp [taken_append, htakes]
  have hgiven : ∀ pk, given pk (history ++ [(i, e)]) = given pk history := by
    intro pk
    simp [given_append, hgives]
  have hmarks : ∀ pk, marks pk (history ++ [(i, e)]) = marks pk history := by
    intro pk
    simp [marks_append, hmark]
  refine ⟨h.keyed, ?_, ?_, ?_, h.rows, ?_, h.loaded, ?_⟩
  · intro k
    have hk := h.covered k
    simpa [List.countP_append, List.countP_cons, htakes, hgives] using hk
  · intro pk hpk
    rw [htaken, hmarks]
    exact h.fresh pk hpk
  · intro pk
    rw [htaken, hgiven]
    exact h.held pk
  · intro d hd
    rw [hmarks]
    exact h.cursors d hd
  · intro pk
    rw [hmarks]
    exact h.alternates pk

/-! ### Creating and enqueueing -/

theorem Owned.create (h : Owned history s) {make : ℕ → WebhookDelivery}
    (hmake : Guarded (.create make)) :
    Owned (history ++ [(i, ⟨.create make, s.nextPk⟩)]) (exec cfg (.create make) s).2 := by
  obtain ⟨hpending, hattempt, hcursor⟩ := hmake s.nextPk
  have htaken : ∀ pk, taken pk (history ++ [(i, ⟨.create make, s.nextPk⟩)]) =
      taken pk history + if s.nextPk = pk then 1 else 0 := by
    intro pk
    rw [taken_append]
    simp [takes]
  have hgiven : ∀ pk, given pk (history ++ [(i, ⟨.create make, s.nextPk⟩)]) = given pk history := by
    intro pk
    rw [given_append]
    rfl
  have hmarks : ∀ pk, marks pk (history ++ [(i, ⟨.create make, s.nextPk⟩)]) = marks pk history := by
    intro pk
    rw [marks_append]
    exact List.append_nil _
  have hfresh := h.fresh s.nextPk (Nat.le_refl _)
  have hdelivery : ∀ pk, (exec cfg (.create make) s).2.delivery pk =
      (s.delivery pk).or (if s.nextPk = pk then some { make s.nextPk with pk := s.nextPk } else none) :=
    fun _ => Table.get_append _
  refine ⟨keyed_createDelivery h.keyed false make, ?_, ?_, ?_, ?_, ?_, ?_, ?_⟩
  · intro k
    have hk := h.covered k
    simp only [List.map_append, List.countP_append]
    exact Nat.add_le_add hk (by simp [gives])
  · intro pk hpk
    have hlt : s.nextPk + 1 ≤ pk := hpk
    rw [htaken, hmarks, if_neg (by omega)]
    exact h.fresh pk (by omega)
  · intro pk
    rw [htaken, hgiven]
    by_cases hk : s.nextPk = pk
    · subst hk
      have hnone : s.delivery s.nextPk = none := by
        apply Table.get_eq_none_iff.mpr
        intro d hd
        exact (h.keyed.nextPk d hd).ne
      have hone : (exec cfg (.create make) s).2.pending s.nextPk = 1 := by
        rw [Store.pending, hdelivery, hnone]
        simp [hpending]
      have hsends : (exec cfg (.create make) s).2.sends s.nextPk = s.sends s.nextPk := rfl
      rw [if_pos rfl, hone, hsends, hfresh.1, hfresh.2.1]
      omega
    · have hsame : (exec cfg (.create make) s).2.pending pk = s.pending pk := by
        rw [Store.pending, hdelivery, if_neg hk, Option.or_none]
        rfl
      rw [if_neg hk, hsame]
      exact h.held pk
  · intro d hd
    rcases List.mem_append.mp hd with hd | hd
    · exact h.rows d hd
    · obtain rfl := List.mem_singleton.mp hd
      refine ⟨?_, ?_, ?_⟩ <;> simp [hpending, hattempt, hcursor]
  · intro d hd
    rw [hmarks]
    rcases List.mem_append.mp hd with hd | hd
    · exact h.cursors d hd
    · obtain rfl := List.mem_singleton.mp hd
      simp [hfresh.2.2, hcursor]
  · intro t ht c hc
    exact Table.get_append_of_some _ (h.loaded t ht c hc)
  · intro pk
    rw [hmarks]
    exact h.alternates pk

theorem Owned.enqueue (h : Owned history s) {accepted : Bool}
    (hcovered : Script.Covered takes gives (history.map (·.2) ++ [⟨.enqueue pk accepted, ()⟩])) :
    Owned (history ++ [(i, ⟨.enqueue pk accepted, ()⟩)]) (s.enqueueDelivery accepted pk) := by
  have htaken : ∀ k, taken k (history ++ [(i, ⟨.enqueue pk accepted, ()⟩)]) = taken k history := by
    intro k
    rw [taken_append]
    rfl
  have hgiven : ∀ k, given k (history ++ [(i, ⟨.enqueue pk accepted, ()⟩)]) =
      given k history + if pk = k then 1 else 0 := by
    intro k
    rw [given_append]
    simp [gives]
  have hmarks : ∀ k, marks k (history ++ [(i, ⟨.enqueue pk accepted, ()⟩)]) = marks k history := by
    intro k
    rw [marks_append]
    exact List.append_nil _
  have hsends : ∀ k, (s.enqueueDelivery accepted pk).sends k ≤ s.sends k + if pk = k then 1 else 0 := by
    intro k
    cases accepted with
    | false => exact Nat.le_add_right _ _
    | true => simp [Store.enqueueDelivery, Store.sends, List.countP_append, List.countP_cons]
  have hrows : (s.enqueueDelivery accepted pk).deliveries = s.deliveries ∧
      (s.enqueueDelivery accepted pk).nextPk = s.nextPk := by
    cases accepted <;> exact ⟨rfl, rfl⟩
  have hdelivery : ∀ k, (s.enqueueDelivery accepted pk).delivery k = s.delivery k := by
    intro k
    rw [Store.delivery, hrows.1]
    rfl
  -- who enqueues has taken a token of this delivery before
  have hgave : given pk history + 1 ≤ taken pk history := by
    have hk := hcovered pk
    simpa [List.countP_append, List.countP_cons, takes, gives, given, taken] using hk
  refine ⟨keyed_enqueueDelivery h.keyed accepted pk, ?_, ?_, ?_, ?_, ?_, ?_, ?_⟩
  · rw [List.map_append]
    exact hcovered
  · intro k hk
    rw [hrows.2] at hk
    obtain ⟨hnone, hqueue, hblank⟩ := h.fresh k hk
    have hne : pk ≠ k := by
      rintro rfl
      omega
    refine ⟨(htaken k).trans hnone, ?_, (hmarks k).trans hblank⟩
    have := hsends k
    rw [if_neg hne] at this
    omega
  · intro k
    have := h.held k
    have := hsends k
    rw [htaken, hgiven, Store.pending, hdelivery, ← Store.pending]
    omega
  · rw [hrows.1]
    exact h.rows
  · rw [hrows.1]
    intro d hd
    rw [hmarks]
    exact h.cursors d hd
  · intro t ht c hc
    rw [hdelivery]
    cases accepted with
    | false => exact h.loaded t ht c hc
    | true =>
      rcases List.mem_append.mp ht with ht | ht
      · exact h.loaded t ht c hc
      · obtain rfl := List.mem_singleton.mp ht
        cases hc
  · intro k
    rw [hmarks]
    exact h.alternates k

/-! ### Claiming -/

theorem delivery_alter (s : Store) (pk : ℕ) {f : WebhookDelivery → WebhookDelivery}
    (hf : ∀ d, (f d).pk = d.pk) (k : ℕ) :
    (s.alterDelivery pk f).delivery k = if k = pk then (s.delivery pk).map f else s.delivery k :=
  Table.get_alter hf

/-- What a claim makes of a row. -/
def WebhookDelivery.release (d : WebhookDelivery) : WebhookDelivery :=
  { d with status := .pending, nextAttemptAt := none }

theorem Owned.claim (h : Owned history s) {observed : Option Time} (hguard : observed.isSome = true)
    (hd : s.delivery pk = some d) (hseen : d.nextAttemptAt = observed) :
    Owned (history ++ [(i, ⟨.claim pk observed, true⟩)])
      (s.alterDelivery pk WebhookDelivery.release) := by
  have htaken : ∀ k, taken k (history ++ [(i, ⟨.claim pk observed, true⟩)]) =
      taken k history + if pk = k then 1 else 0 := by
    intro k
    rw [taken_append]
    simp [takes]
  have hgiven : ∀ k, given k (history ++ [(i, ⟨.claim pk observed, true⟩)]) = given k history := by
    intro k
    rw [given_append]
    rfl
  have hmarks : ∀ k, marks k (history ++ [(i, ⟨.claim pk observed, true⟩)]) =
      marks k history ++ if pk = k then [.claimed] else [] := by
    intro k
    rw [marks_append]
    by_cases hk : pk = k <;> simp [markOf, hk]
  have hmem := Table.get_mem hd
  have hkey : d.pk = pk := Table.key_of_get hd
  have hsome : d.nextAttemptAt.isSome = true := hseen ▸ hguard
  have hretrying : d.status = .retrying := (h.rows d hmem).cursor.mp hsome
  have hlast : (marks pk history).getLast? = some .scheduled := hkey ▸ (h.cursors d hmem).mp hsome
  have hfree : s.pending pk = 0 := Store.pending_eq_zero hd (by rw [hretrying]; decide)
  have hdelivery := delivery_alter s pk (f := WebhookDelivery.release) fun _ => rfl
  have hrow : ∀ d' ∈ (s.alterDelivery pk WebhookDelivery.release).deliveries,
      d' ∈ s.deliveries ∧ d'.pk ≠ pk ∨ d' = d.release := by
    intro d' hd'
    obtain ⟨r, hr, rfl⟩ := Table.mem_alter hd'
    by_cases hk : r.pk = pk
    · obtain rfl : r = d := by
        have hget := h.keyed.delivery_mem hr
        rw [hk] at hget
        exact Option.some.inj (hget.symm.trans hd)
      exact .inr (if_pos hk)
    · rw [if_neg hk]
      exact .inl ⟨hr, hk⟩
  refine ⟨keyed_alterDelivery h.keyed pk fun _ => rfl, ?_, ?_, ?_, ?_, ?_, ?_, ?_⟩
  · intro k
    have hk := h.covered k
    simp only [List.map_append, List.countP_append]
    exact Nat.add_le_add hk (by simp [gives])
  · intro k hk
    have hlt := h.lt_nextPk hd
    have hge : s.nextPk ≤ k := hk
    rw [htaken, hmarks, if_neg (by omega), if_neg (by omega), List.append_nil]
    exact h.fresh k hge
  · intro k
    rw [htaken, hgiven]
    have hheld := h.held k
    have hsends : (s.alterDelivery pk WebhookDelivery.release).sends k =
        s.sends k := rfl
    by_cases hk : pk = k
    · subst hk
      have hone : (s.alterDelivery pk WebhookDelivery.release).pending pk = 1 := by
        rw [Store.pending, hdelivery, if_pos rfl, hd]
        rfl
      rw [if_pos rfl, hone, hsends]
      omega
    · have hsame : (s.alterDelivery pk WebhookDelivery.release).pending k = s.pending k := by
        rw [Store.pending, hdelivery, if_neg (Ne.symm hk)]
        rfl
      rw [if_neg hk, hsame, hsends]
      exact hheld
  · intro d' hd'
    rcases hrow d' hd' with ⟨hold, -⟩ | rfl
    · exact h.rows d' hold
    · have hsane := h.rows d hmem
      have hleft : d.attempt < max 1 d.maxAttempts :=
        hsane.left (by simp [WebhookDelivery.isTerminal, hretrying])
      exact ⟨by simp [WebhookDelivery.release], hsane.attempt, fun _ => hleft⟩
  · intro d' hd'
    rw [hmarks]
    rcases hrow d' hd' with ⟨hold, hne⟩ | rfl
    · rw [if_neg (Ne.symm hne), List.append_nil]
      exact h.cursors d' hold
    · simp [WebhookDelivery.release, hkey]
  · intro t ht c hc
    rw [hdelivery]
    by_cases hk : t.delivery = pk
    · -- no send holds the token of a cursor
      have hpos : 1 ≤ s.sends t.delivery := Store.sends_pos ht
      have hle := h.sends_le t.delivery
      rw [hk, hfree] at hle
      rw [hk] at hpos
      omega
    · rw [if_neg hk]
      exact h.loaded t ht c hc
  · intro k
    rw [hmarks]
    by_cases hk : pk = k
    · subst hk
      rw [if_pos rfl]
      apply (h.alternates pk).append (List.isChain_singleton _)
      rw [hlast]
      intro x hx y hy
      rw [Option.mem_def] at hx hy
      cases hx
      cases hy
      decide
    · rw [if_neg hk, List.append_nil]
      exact h.alternates k

/-! ### Sending -/

/-- A task may go. -/
theorem Owned.drop (h : Owned history s) (id : ℕ) : Owned history (s.dropTask id) := by
  have hsends : ∀ pk, (s.dropTask id).sends pk ≤ s.sends pk :=
    fun pk => List.filter_sublist.countP_le
  refine ⟨keyed_dropTask h.keyed id, h.covered, ?_, ?_, h.rows, h.cursors, ?_, h.alternates⟩
  · intro pk hpk
    obtain ⟨hnone, hqueue, hblank⟩ := h.fresh pk hpk
    have := hsends pk
    exact ⟨hnone, by omega, hblank⟩
  · intro pk
    have := h.held pk
    have := hsends pk
    have hpending : (s.dropTask id).pending pk = s.pending pk := rfl
    omega
  · intro t ht c hc
    exact h.loaded t (List.mem_of_mem_filter ht) c hc

theorem Owned.start (h : Owned history s) (id : ℕ) : Owned history (s.startTask id) := by
  rw [Store.startTask]
  split
  · exact h
  rename_i task htask
  split
  · exact h.drop id
  rename_i c hc
  split
  · exact h.drop id
  · have hid : ∀ t : SendTask, { t with loaded := some c }.id = t.id := fun _ => rfl
    have hsends : ∀ pk, List.countP (fun t : SendTask => decide (t.delivery = pk))
        (Table.alter SendTask.id id (fun t => { t with loaded := some c }) s.queue) = s.sends pk := by
      intro pk
      rw [Table.alter, List.countP_map, Store.sends]
      apply List.countP_congr
      intro t _
      simp only [Function.comp_apply]
      split <;> rfl
    have htasks : ∀ t' ∈ Table.alter SendTask.id id (fun t => { t with loaded := some c }) s.queue,
        t' ∈ s.queue ∨ t' = { task with loaded := some c } := by
      intro t' ht'
      obtain ⟨t, ht, rfl⟩ := Table.mem_alter ht'
      by_cases hk : t.id = id
      · obtain rfl : t = task := by
          have hget := Table.get_of_mem h.keyed.queue ht
          rw [hk] at hget
          exact Option.some.inj (hget.symm.trans htask)
        exact .inr (if_pos hk)
      · rw [if_neg hk]
        exact .inl ht
    have hkey : c.pk = task.delivery := Table.key_of_get hc
    refine ⟨⟨h.keyed.deliveries, h.keyed.nextPk, h.keyed.queue.alter hid, ?_, ?_⟩, h.covered, ?_, ?_,
      h.rows, h.cursors, ?_, h.alternates⟩
    · intro t' ht'
      rcases htasks t' ht' with ht | rfl
      · exact h.keyed.nextTask t' ht
      · exact h.keyed.nextTask task (Table.get_mem htask)
    · intro t' ht' d hd
      rcases htasks t' ht' with ht | rfl
      · exact h.keyed.loaded t' ht d hd
      · cases hd
        exact hkey
    · intro pk hpk
      obtain ⟨hnone, hqueue, hblank⟩ := h.fresh pk hpk
      exact ⟨hnone, (hsends pk).trans hqueue, hblank⟩
    · intro pk
      have hheld := h.held pk
      rw [← hsends pk] at hheld
      exact hheld
    · intro t' ht' d hd
      rcases htasks t' ht' with ht | rfl
      · exact h.loaded t' ht d hd
      · cases hd
        exact hc

/-- An attempt leaves a delivery sane that had one left. -/
theorem sane_attempted (hleft : d.attempt < max 1 d.maxAttempts) (response : Response)
    (elapsedMs : ℕ) (now : Time) : Sane (attempted cfg response elapsedMs now d) := by
  simp only [attempted]
  by_cases hsucceeded : response.succeeded = true
  · rw [if_pos hsucceeded]
    refine ⟨by simp, ?_, by simp [WebhookDelivery.isTerminal]⟩
    show d.attempt + 1 ≤ max 1 d.maxAttempts
    omega
  rw [if_neg hsucceeded]
  by_cases hspent : d.maxAttempts ≤ d.attempt + 1
  · rw [if_pos hspent]
    refine ⟨by simp, ?_, by simp [WebhookDelivery.isTerminal]⟩
    show d.attempt + 1 ≤ max 1 d.maxAttempts
    omega
  · rw [if_neg hspent]
    refine ⟨by simp, ?_, fun _ => ?_⟩
    · show d.attempt + 1 ≤ max 1 d.maxAttempts
      omega
    · show d.attempt + 1 < max 1 d.maxAttempts
      omega

theorem attempted_status (cfg : Settings) (response : Response) (elapsedMs : ℕ) (now : Time)
    (d : WebhookDelivery) : (attempted cfg response elapsedMs now d).pk = d.pk ∧
      (attempted cfg response elapsedMs now d).status ≠ .pending := by
  simp only [attempted]
  split
  · exact ⟨rfl, by simp⟩
  split
  · exact ⟨rfl, by simp⟩
  · exact ⟨rfl, by simp⟩

/-- The row is the copy that the send has loaded. -/
theorem saveAttempt_attempted (cfg : Settings) (response : Response) (elapsedMs : ℕ) (now : Time)
    (d : WebhookDelivery) : saveAttempt (attempted cfg response elapsedMs now d) d =
      attempted cfg response elapsedMs now d := by
  simp only [attempted]
  split
  · rfl
  split <;> rfl

/-- A send is recorded that holds the token of its delivery. -/
theorem Owned.record (h : Owned history s) (cfg : Settings) (i : ℕ) (response : Response)
    (elapsedMs : ℕ) (now : Time) {c : WebhookDelivery} (ht : t ∈ s.queue) (hc : t.loaded = some c) :
    Owned (history ++ [(i, ⟨.finish t.id (.answered response elapsedMs) now,
        some (attempted cfg response elapsedMs now c)⟩)])
      ((s.dropTask t.id).alterDelivery c.pk
        (saveAttempt (attempted cfg response elapsedMs now c))) := by
  obtain ⟨hpk, hdone⟩ := attempted_status cfg response elapsedMs now c
  have hsaved := saveAttempt_attempted cfg response elapsedMs now c
  generalize hcopy : attempted cfg response elapsedMs now c = copy at hpk hdone hsaved ⊢
  have hrow : s.delivery t.delivery = some c := h.loaded t ht c hc
  have hkey : c.pk = t.delivery := Table.key_of_get hrow
  have hmem := Table.get_mem hrow
  have hpos : 1 ≤ s.sends t.delivery := Store.sends_pos ht
  have hle := h.sends_le t.delivery
  have hpending : c.status = .pending := Store.pending_eq_one hrow (hpos.trans hle)
  have hsane := h.rows c hmem
  have hblank : c.nextAttemptAt.isSome ≠ true := by
    rw [Ne, hsane.cursor, hpending]
    decide
  have hlast : (marks c.pk history).getLast? ≠ some .scheduled := by
    rwa [Ne, ← h.cursors c hmem]
  have hsane' : Sane copy := by
    have hleft := hsane.left (by simp [WebhookDelivery.isTerminal, hpending])
    exact hcopy ▸ sane_attempted hleft response elapsedMs now
  have htaken : ∀ k, taken k (history ++ [(i, ⟨.finish t.id (.answered response elapsedMs) now,
      some copy⟩)]) = taken k history := by
    intro k
    rw [taken_append]
    rfl
  have hgiven : ∀ k, given k (history ++ [(i, ⟨.finish t.id (.answered response elapsedMs) now,
      some copy⟩)]) = given k history := by
    intro k
    rw [given_append]
    rfl
  have hmarks : ∀ k, marks k (history ++ [(i, ⟨.finish t.id (.answered response elapsedMs) now,
      some copy⟩)]) = marks k history ++
        if c.pk = k ∧ copy.status = .retrying then [.scheduled] else [] := by
    intro k
    rw [marks_append]
    by_cases hk : c.pk = k ∧ copy.status = .retrying <;> simp [markOf, hpk, hk]
  have hdrop := h.drop t.id
  have hf : ∀ d, (saveAttempt copy d).pk = d.pk := fun _ => rfl
  have hdelivery := delivery_alter (s.dropTask t.id) c.pk hf
  have hrows : ∀ d ∈ ((s.dropTask t.id).alterDelivery c.pk (saveAttempt copy)).deliveries,
      d ∈ s.deliveries ∧ d.pk ≠ c.pk ∨ d = copy := by
    intro d hd
    obtain ⟨r, hr, rfl⟩ := Table.mem_alter hd
    by_cases hk : r.pk = c.pk
    · obtain rfl : r = c := by
        have hget := h.keyed.delivery_mem hr
        rw [hk, hkey] at hget
        exact Option.some.inj (hget.symm.trans hrow)
      rw [if_pos hk]
      exact .inr hsaved
    · rw [if_neg hk]
      exact .inl ⟨hr, hk⟩
  -- the token of the send goes with its task
  have hsends : (s.dropTask t.id).sends t.delivery + 1 ≤ s.sends t.delivery := by
    have hsplit := List.countP_eq_countP_filter_add s.queue
      (fun t' : SendTask => decide (t'.delivery = t.delivery)) fun t' => decide (t'.id ≠ t.id)
    have hself : 1 ≤ (s.queue.filter fun t' => !decide (t'.id ≠ t.id)).countP
        fun t' => decide (t'.delivery = t.delivery) :=
      List.countP_pos_iff.mpr ⟨t, List.mem_filter.mpr ⟨ht, by simp⟩, decide_eq_true rfl⟩
    simp only [Store.sends, Store.dropTask]
    omega
  refine ⟨keyed_alterDelivery hdrop.keyed c.pk hf, ?_, ?_, ?_, ?_, ?_, ?_, ?_⟩
  · intro k
    have hk := h.covered k
    simp only [List.map_append, List.countP_append]
    exact Nat.add_le_add hk (by simp [gives])
  · intro k hk
    have hlt := h.lt_nextPk hrow
    have hge : s.nextPk ≤ k := hk
    rw [htaken, hmarks, if_neg fun hboth => by omega, List.append_nil]
    exact hdrop.fresh k hge
  · intro k
    rw [htaken, hgiven]
    by_cases hk : t.delivery = k
    · subst hk
      have hheld := h.held t.delivery
      have := Store.pending_le t.delivery s
      have hsame : ((s.dropTask t.id).alterDelivery c.pk (saveAttempt copy)).sends t.delivery =
          (s.dropTask t.id).sends t.delivery := rfl
      omega
    · have hsame : ((s.dropTask t.id).alterDelivery c.pk (saveAttempt copy)).pending k =
          s.pending k := by
        have hother : k ≠ c.pk := fun hkc => hk (hkey.symm.trans hkc.symm)
        rw [Store.pending, hdelivery, if_neg hother]
        rfl
      rw [hsame]
      exact hdrop.held k
  · intro d hd
    rcases hrows d hd with ⟨hold, -⟩ | rfl
    · exact h.rows d hold
    · exact hsane'
  · intro d hd
    rw [hmarks]
    rcases hrows d hd with ⟨hold, hne⟩ | rfl
    · rw [if_neg fun hboth => hne hboth.1.symm, List.append_nil]
      exact h.cursors d hold
    · rw [hsane'.cursor, hpk]
      by_cases hstatus : d.status = .retrying
      · simp [hstatus]
      · simpa [hstatus] using hlast
  · intro t' ht' c' hc'
    have hmem' := List.mem_of_mem_filter ht'
    rw [hdelivery]
    by_cases hk : t'.delivery = c.pk
    · -- no other send holds this token
      have hpos' : 1 ≤ (s.dropTask t.id).sends t'.delivery := Store.sends_pos ht'
      have := Store.pending_le t.delivery s
      rw [hk, hkey] at hpos'
      omega
    · rw [if_neg hk]
      exact h.loaded t' hmem' c' hc'
  · intro k
    rw [hmarks]
    by_cases hk : c.pk = k ∧ copy.status = .retrying
    · rw [if_pos hk]
      apply (h.alternates k).append (List.isChain_singleton _)
      intro x hx y hy
      rw [Option.mem_def] at hx hy
      cases hy
      rintro rfl
      exact hlast (hk.1 ▸ hx)
    · rw [if_neg hk, List.append_nil]
      exact h.alternates k

/-! ### Runs -/

/-- What everyone performs keeps the accounts. -/
theorem Owned.step (h : Owned history s) (cfg : Settings) (i : ℕ) {op : Statement} (hop : Guarded op)
    (hcovered : Script.Covered takes gives (history.map (·.2) ++ [⟨op, (exec cfg op s).1⟩])) :
    Owned (history ++ [(i, ⟨op, (exec cfg op s).1⟩)]) (exec cfg op s).2 := by
  cases op with
  | matching eventType => exact h.quiet rfl rfl fun _ => rfl
  | load pk => exact h.quiet rfl rfl fun _ => rfl
  | due now limit => exact h.quiet rfl rfl fun _ => rfl
  | create make => exact h.create hop
  | enqueue pk accepted => exact h.enqueue hcovered
  | claim pk observed =>
    by_cases hwon : (s.delivery pk).any (fun d => d.nextAttemptAt = observed) = true
    · have hexec : exec cfg (.claim pk observed) s =
          (true, s.alterDelivery pk WebhookDelivery.release) := if_pos hwon
      rw [hexec]
      cases hd : s.delivery pk with
      | none =>
        rw [hd] at hwon
        cases hwon
      | some d =>
        rw [hd, Option.any_some] at hwon
        exact h.claim hop hd (of_decide_eq_true hwon)
    · have hexec : exec cfg (.claim pk observed) s = (false, s) := if_neg hwon
      rw [hexec]
      exact h.quiet rfl rfl fun _ => rfl
  | start task =>
    by_cases hwaits : s.waiting task = true
    · have hexec : exec cfg (.start task) s =
          (((s.startTask task).loaded task).isSome, s.startTask task) := if_pos hwaits
      rw [hexec]
      exact (h.start task).quiet rfl rfl fun _ => rfl
    · have hexec : exec cfg (.start task) s = (false, s) := if_neg hwaits
      rw [hexec]
      exact h.quiet rfl rfl fun _ => rfl
  | finish task ending now =>
    have hexec : exec cfg (.finish task ending now) s =
      (s.outcome cfg task ending now, s.finishTask cfg task ending now) := rfl
    rw [hexec]
    cases ht : Table.get SendTask.id s.queue task with
    | none =>
      have houtcome : s.outcome cfg task ending now = none := by
        cases ending <;> simp [Store.outcome, Store.loaded, ht]
      have hfinish : s.finishTask cfg task ending now = s := by
        rw [Store.finishTask, ht]
      rw [houtcome, hfinish]
      exact h.quiet rfl rfl fun _ => rfl
    | some t =>
      obtain rfl := Table.key_of_get ht
      cases hc : t.loaded with
      | none =>
        have houtcome : s.outcome cfg t.id ending now = none := by
          cases ending <;> simp [Store.outcome, Store.loaded, ht, hc]
        have hfinish : s.finishTask cfg t.id ending now = s := by
          simp only [Store.finishTask, ht, hc]
        rw [houtcome, hfinish]
        exact h.quiet rfl rfl fun _ => rfl
      | some c =>
        cases ending with
        | raised =>
          have hfinish : s.finishTask cfg t.id .raised now = s.dropTask t.id := by
            simp only [Store.finishTask, ht, hc]
          rw [hfinish]
          exact (h.drop t.id).quiet rfl rfl fun _ => rfl
        | answered response elapsedMs =>
          have houtcome : s.outcome cfg t.id (.answered response elapsedMs) now =
              some (attempted cfg response elapsedMs now c) := by
            simp [Store.outcome, Store.loaded, ht, hc]
          have hrecorded := h.record cfg i response elapsedMs now (Table.get_mem ht) hc
          rw [houtcome]
          simp only [Store.finishTask, ht, hc]
          exact ⟨⟨hrecorded.keyed.deliveries, hrecorded.keyed.nextPk, hrecorded.keyed.queue,
            hrecorded.keyed.nextTask, hrecorded.keyed.loaded⟩, hrecorded.covered,
            hrecorded.fresh, hrecorded.held, hrecorded.rows, hrecorded.cursors,
            hrecorded.loaded, hrecorded.alternates⟩

/-- Nobody writes a delivery that is done. -/
theorem Owned.final (h : Owned history s) (cfg : Settings) {op : Statement} (hop : Guarded op)
    (hd : s.delivery pk = some d) (hdone : d.isTerminal = true) :
    (exec cfg op s).2.delivery pk = some d := by
  have hmem := Table.get_mem hd
  have hkey : d.pk = pk := Table.key_of_get hd
  have hidle : d.status ≠ .pending ∧ d.status ≠ .retrying := by
    cases hstatus : d.status <;> simp [WebhookDelivery.isTerminal, hstatus] at hdone ⊢
  cases op with
  | matching eventType | load k | due now limit => exact hd
  | create make => exact Table.get_append_of_some _ hd
  | enqueue k accepted => cases accepted <;> exact hd
  | claim k observed =>
    by_cases hwon : (s.delivery k).any (fun d => d.nextAttemptAt = observed) = true
    · have hexec : exec cfg (.claim k observed) s =
          (true, s.alterDelivery k WebhookDelivery.release) := if_pos hwon
      rw [hexec]
      show (s.alterDelivery k WebhookDelivery.release).delivery pk = some d
      rw [delivery_alter s k (f := WebhookDelivery.release) fun _ => rfl]
      by_cases hk : pk = k
      · subst hk
        rw [hd, Option.any_some, decide_eq_true_eq] at hwon
        have hsome : d.nextAttemptAt.isSome = true := hwon ▸ hop
        exact absurd ((h.rows d hmem).cursor.mp hsome) hidle.2
      · rw [if_neg hk]
        exact hd
    · have hexec : exec cfg (.claim k observed) s = (false, s) := if_neg hwon
      rw [hexec]
      exact hd
  | start task =>
    have hrows : (s.startTask task).deliveries = s.deliveries := by
      rw [Store.startTask]
      split
      · rfl
      split
      · rfl
      split <;> rfl
    have hstart : (s.startTask task).delivery pk = some d := by
      rw [Store.delivery, hrows]
      exact hd
    show (ite _ _ _ : Bool × Store).2.delivery pk = some d
    split
    · exact hstart
    · exact hd
  | finish task ending now =>
    show (s.finishTask cfg task ending now).delivery pk = some d
    rw [Store.finishTask]
    split
    · exact hd
    rename_i t ht
    split
    · exact hd
    · exact hd
    rename_i c response elapsedMs hc
    show ((s.dropTask task).alterDelivery c.pk
      (saveAttempt (attempted cfg response elapsedMs now c))).delivery pk = some d
    rw [delivery_alter (s.dropTask task) c.pk
      (f := saveAttempt (attempted cfg response elapsedMs now c)) fun _ => rfl]
    have hrow := h.loaded t (Table.get_mem ht) c hc
    have hpos : 1 ≤ s.sends t.delivery := Store.sends_pos (Table.get_mem ht)
    have hpending := Store.pending_eq_one hrow (hpos.trans (h.sends_le t.delivery))
    by_cases hk : pk = c.pk
    · have hsame : c = d := by
        rw [hk, Table.key_of_get hrow, hrow] at hd
        exact Option.some.inj hd
      exact absurd (hsame ▸ hpending) hidle.1
    · rw [if_neg hk]
      exact hd

end owned

section runs

variable (cfg : Settings) (endpoints : List WebhookEndpoint) (moves more : List (Move Job))

theorem meets_tokens : Session.Meets (exec cfg) (Job.script cfg)
    (fun history s op =>
      Script.Covered takes gives (history.map (·.2) ++ [⟨op, (exec cfg op s).1⟩]))
    ({ store := { endpoints } } : Deliveries) moves :=
  Session.meets_covered (exec cfg) covers_script { endpoints } moves

theorem sound_start : Session.Sound (exec cfg) (fun _ op => Guarded op) (fun _ => True)
    ({ store := { endpoints } } : Deliveries) := ⟨trivial, by simp⟩

theorem owned_start : Owned [] { endpoints } := by
  refine ⟨⟨?_, ?_, ?_, ?_, ?_⟩, ?_, ?_, ?_, ?_, ?_, ?_, ?_⟩ <;>
    simp [Table.Unique, Script.Covered, taken, given, marks, Store.sends, Store.pending, Store.delivery,
      Table.get]

theorem owned_runSession :
    Session.Sound (exec cfg) (fun _ op => Guarded op) (fun _ => True)
      (runSession cfg endpoints moves) ∧
    Owned (runSession cfg endpoints moves).history (runSession cfg endpoints moves).store :=
  (sound_start cfg endpoints).run (stable_const True) keeps_script moves (meets_tokens cfg endpoints moves)
    (fun _ _ i _ _ hop hcovered h => h.step cfg i hop hcovered) (owned_start endpoints)

/-- A delivery has one send at most, its cursor is claimed once before there is another one, its
attempts stay within their budget, and a cursor goes with a retry. -/
structure Safe (y : Deliveries) : Prop where
  sends : ∀ pk, (y.store.queue.countP fun t => t.delivery = pk) ≤ 1
  claims : ∀ pk, (marks pk y.history).IsChain (· ≠ ·)
  attempts : ∀ d ∈ y.store.deliveries, d.attempt ≤ max 1 d.maxAttempts
  cursors : ∀ d ∈ y.store.deliveries, d.nextAttemptAt.isSome = true ↔ d.status = .retrying

/-- What is done stays as it is. -/
def KeepsDone (s s' : Store) : Prop :=
  ∀ pk d, s.delivery pk = some d → d.isTerminal = true → s'.delivery pk = some d

/-- However ticks and sends take turns, the deliveries are safe at every point. -/
theorem deliveries_safe : Safe (runSession cfg endpoints moves) ∧
    KeepsDone (runSession cfg endpoints moves).store (runSession cfg endpoints (moves ++ more)).store := by
  obtain ⟨hsound, howned⟩ := owned_runSession cfg endpoints moves
  refine ⟨⟨?_, howned.alternates, fun d hd => (howned.rows d hd).attempt,
    fun d hd => (howned.rows d hd).cursor⟩, ?_⟩
  · intro pk
    exact (howned.sends_le pk).trans (Store.pending_le pk _)
  · intro pk d hd hdone
    have hmeets := (Session.meets_append.mp (meets_tokens cfg endpoints (moves ++ more))).2
    have hkept := (hsound.run (stable_const True) keeps_script more hmeets
      (J := fun history s => Owned history s ∧ s.delivery pk = some d)
      (fun _ _ i _ _ hop hcovered h => ⟨h.1.step cfg i hop hcovered, h.1.final cfg hop h.2 hdone⟩)
      ⟨howned, hd⟩).2.2
    rw [runSession, Session.run_append]
    exact hkept

end runs

/-- A delivery that is created with no attempt has one. -/
theorem one_attempt_of_none :
    ¬ ∀ cfg endpoints moves, ∀ d ∈ (runSession cfg endpoints moves).store.deliveries,
      d.attempt ≤ d.maxAttempts := by
  intro h
  have hd := h { maxAttempts := 0, fnmatch := fun name pattern => name = pattern }
    [{ pk := 1, eventFilter := ["qso.created".toList] }]
    [.start (.fanOut "qso.created".toList "{}".toList none [true]), .turn 0, .turn 0, .turn 0,
      .start (.send 0 (.answered (.status 503 none) 12) 0), .turn 1, .turn 1]
    { pk := 0, endpoint := 1, eventType := "qso.created".toList, payload := "{}".toList,
      eventId := none, maxAttempts := 0, status := .dead, attempt := 1, responseStatus := some 503,
      responseMs := some 12 } (by decide +kernel)
  exact absurd hd (by decide)

end CwStation.Webhooks
