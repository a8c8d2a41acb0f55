import CwStation.Verification.Scheduler.Cadence
import CwStation.Model.Scheduler

/-! # Ticks claim what they fire -/

namespace CwStation.Scheduler

open Tasks (Time seconds)
open Scripts

variable {ω : Type} {engine : Engine ω} {s : Store ω} {pk : ℕ}

/-! ### The cursors -/

/-- The `next_run_at` of a job. -/
def Store.cursor (s : Store ω) (pk : ℕ) : Option Time := (s.job pk).bind ScheduledJob.nextRunAt

theorem cursor_alter {f : ScheduledJob → ScheduledJob} {k : ℕ} (hf : ∀ r, r.pk = k → (f r).pk = k)
    (pk : ℕ) : (s.alter k f).cursor pk =
      if pk = k then (s.job k).bind fun row => (f row).nextRunAt else s.cursor pk := by
  rw [Store.cursor, Store.job, Store.alter, Table.get_alter_of hf]
  by_cases hk : pk = k
  · rw [if_pos hk, if_pos hk, Option.bind_map]
    rfl
  · rw [if_neg hk, if_neg hk]
    rfl

theorem cursor_alter_same {f : ScheduledJob → ScheduledJob} (hf : ∀ r, (f r).pk = r.pk)
    (hnext : ∀ r, (f r).nextRunAt = r.nextRunAt) (k pk : ℕ) :
    (s.alter k f).cursor pk = s.cursor pk := by
  rw [cursor_alter fun r hr => (hf r).trans hr]
  by_cases hk : pk = k
  · rw [if_pos hk, hk]
    simp only [hnext]
    rfl
  · rw [if_neg hk]

/-- The job and the instant that a tick has claimed. -/
def claimed : Event Answer → Option (ℕ × Time)
  | ⟨.claim job _ _, true⟩ => job.nextRunAt.map fun due => (job.pk, due)
  | _ => none

/-- A claim moves the cursor of its job, a save writes it, and no other statement does either. -/
theorem exec_cursor (engine : Engine ω) (op : Statement) (s : Store ω) :
    (∃ job now next, op = .claim job now next ∧ s.cursor job.pk = job.nextRunAt ∧
      (⟨op, (exec engine op s).1⟩ : Event Answer) = ⟨.claim job now next, true⟩ ∧
      ∀ pk, (exec engine op s).2.cursor pk = if pk = job.pk then next else s.cursor pk) ∨
    (∃ loaded copy seeded, op = .save loaded copy seeded ∧ claimed ⟨op, (exec engine op s).1⟩ = none ∧
      ∀ pk, (exec engine op s).2.cursor pk =
        if pk = copy.pk then (s.job copy.pk).bind fun _ => copy.nextRunAt else s.cursor pk) ∨
    claimed ⟨op, (exec engine op s).1⟩ = none ∧
      ∀ pk, (exec engine op s).2.cursor pk = s.cursor pk := by
  cases op with
  | claim job now next =>
    cases hjob : s.job job.pk with
    | none =>
      refine .inr (.inr ⟨?_, ?_⟩) <;> simp [exec, hjob, claimed]
    | some row =>
      by_cases hnext : row.nextRunAt = job.nextRunAt
      · refine .inl ⟨job, now, next, rfl, ?_, ?_, ?_⟩
        · rw [Store.cursor, hjob]
          exact hnext
        · simp [exec, hjob, hnext]
        · intro pk
          simp only [exec, hjob, Option.any_some, hnext, decide_true, if_true]
          refine (cursor_alter (by intro r hr; exact hr) pk).trans ?_
          rw [hjob]
          rfl
      · refine .inr (.inr ⟨?_, ?_⟩) <;> simp [exec, hjob, hnext, claimed]
  | save loaded copy seeded =>
    refine .inr (.inl ⟨loaded, copy, seeded, rfl, rfl, ?_⟩)
    intro pk
    exact cursor_alter (fun r _ => rfl) pk
  | disable _ | book _ _ | markStatus _ _ =>
    refine .inr (.inr ⟨rfl, ?_⟩)
    intro pk
    exact cursor_alter_same (by intro r; rfl) (by intro r; rfl) _ pk
  | _ => exact .inr (.inr ⟨rfl, fun _ => rfl⟩)

/-! ### What a tick keeps to -/

/-- A tick claims due jobs that are `known`, with their next run, and records no success. -/
def Ticking (engine : Engine ω) (known : ScheduledJob → Prop) : Statement → Prop
  | .claim job now next => known job ∧ nextRun engine.lib engine.lib.utc job.cadence now = .ok next ∧
      ∃ due, job.nextRunAt = some due ∧ due ≤ now
  | .record _ status _ _ _ => status ≠ .success
  | .save _ _ _ | .saveRun _ _ _ => False
  | _ => True

section fits

variable {Γ : Store ω → Statement → Prop} {known : ScheduledJob → Prop} {α : Type}

/-- A statement of a tick, and what follows upon any answer. -/
theorem fits_statement {op : Statement} {f : Answer op → Call α} {Q : α → Store ω → Prop}
    (hΓ : ∀ s op, Ticking engine known op → Γ s op) (hop : Ticking engine known op)
    (hf : ∀ a, Fits (exec engine) Γ (f a) (fun _ => True) Q) :
    Fits (exec engine) Γ (perform op >>= f) (fun _ => True) Q :=
  (fits_perform (fun _ => stable_const True) fun s _ => ⟨hΓ s op hop, trivial⟩).bind hf

theorem fits_end (a : α) :
    Fits (exec engine) Γ (pure a : Call α) (fun _ => True) fun _ _ => True :=
  fits_ret fun _ _ => trivial

variable (hΓ : ∀ s op, Ticking engine known op → Γ s op) (job : ScheduledJob) (due now : Time)

include hΓ

theorem fits_enqueueAndRecord :
    Fits (exec engine) Γ (enqueueAndRecord job due now) (fun _ => True) fun _ _ => True := by
  refine fits_statement hΓ (by trivial) fun a => ?_
  cases a with
  | error e => exact fits_end _
  | ok id =>
    refine fits_statement hΓ (by exact nofun) fun _ => ?_
    exact fits_statement hΓ (by trivial) fun _ => fits_end _

theorem fits_fire :
    Fits (exec engine) Γ (fire job due now) (fun _ => True) fun _ _ => True := by
  refine (fits_enqueueAndRecord hΓ job due now).bind fun a => ?_
  rcases a with (text | text) | id
  · refine fits_statement hΓ (by exact nofun) fun _ => ?_
    exact fits_statement hΓ (by trivial) fun _ => fits_end _
  · refine fits_statement hΓ (by exact nofun) fun _ => ?_
    exact fits_statement hΓ (by trivial) fun _ => fits_end _
  · exact fits_end _

theorem fits_previousRunActive :
    Fits (exec engine) Γ (previousRunActive engine job now) (fun _ => True) fun _ _ => True := by
  refine fits_statement hΓ (by trivial) fun a => ?_
  cases a with
  | none => exact fits_end _
  | some last =>
    dsimp only
    cases last.taskResultId with
    | none => exact fits_end _
    | some id =>
      dsimp only
      split
      · exact fits_end _
      · exact fits_statement hΓ (by trivial) fun _ => fits_end _

theorem fits_afterClaim :
    Fits (exec engine) Γ (afterClaim engine job due now) (fun _ => True) fun _ _ => True := by
  have hrest : ∀ active, Fits (exec engine) Γ (afterGuard engine job due now active)
      (fun _ => True) fun _ _ => True := by
    intro active
    unfold afterGuard
    cases active with
    | true => exact fits_statement hΓ (by exact nofun) fun _ => fits_end _
    | false =>
      simp only [Bool.false_eq_true, if_false]
      split
      · exact fits_end _
      · exact fits_fire hΓ job due now
      · exact fits_statement hΓ (by exact nofun) fun _ => fits_end _
  unfold afterClaim
  cases job.allowOverlap with
  | true => exact hrest false
  | false => exact (fits_previousRunActive hΓ job now).bind hrest

/-- A tick takes jobs that are due. -/
theorem fits_processJobBody (hjob : known job) (hdue : ∀ due, job.nextRunAt = some due → due ≤ now) :
    Fits (exec engine) Γ (processJobBody engine job now) (fun _ => True) fun _ _ => True := by
  unfold processJobBody
  cases hnext : job.nextRunAt with
  | none => exact fits_end _
  | some due =>
    dsimp only
    cases hrun : nextRun engine.lib engine.lib.utc job.cadence now with
    | error e =>
      cases e with
      | config => exact fits_statement hΓ (by trivial) fun _ => fits_end _
      | uncaught => exact fits_end _
    | ok next =>
      refine fits_statement hΓ ⟨hjob, hrun, due, hnext, hdue due hnext⟩ fun won => ?_
      cases won with
      | false => exact fits_end _
      | true => exact (fits_afterClaim hΓ job due now).bind fun _ => fits_end _

theorem fits_processJobs {jobs : List ScheduledJob}
    (hjobs : ∀ job ∈ jobs, known job ∧ ∀ due, job.nextRunAt = some due → due ≤ now) :
    Fits (exec engine) Γ (processJobs engine now jobs) (fun _ => True) fun _ _ => True := by
  induction jobs with
  | nil => exact fits_end _
  | cons job jobs ih =>
    obtain ⟨hjob, hdue⟩ := hjobs job List.mem_cons_self
    refine (fits_processJobBody hΓ job now hjob hdue).bind fun _ => ?_
    refine (ih fun job hjob => hjobs job (List.mem_cons_of_mem _ hjob)).bind fun _ => ?_
    exact fits_end _

/-- A tick takes the jobs from a store in `I`. -/
theorem fits_processDue {I : Store ω → Prop} (hknown : ∀ s, I s → ∀ job ∈ s.jobs, known job) :
    Fits (exec engine) Γ (processDue engine now) I fun _ _ => True := by
  have hread : Fits (exec engine) Γ (perform (.due now)) I fun jobs _ =>
      True ∧ ∀ job ∈ jobs, known job ∧ ∀ due, job.nextRunAt = some due → due ≤ now := by
    refine fits_perform (fun _ => stable_const _) fun s hs => ⟨hΓ s _ (by trivial), trivial, ?_⟩
    intro job hjob
    obtain ⟨hmem, hwhere⟩ := List.mem_filter.mp hjob
    refine ⟨hknown s hs job hmem, ?_⟩
    intro due hnext
    simpa [hnext] using (Bool.and_eq_true_iff.mp hwhere).2
  exact hread.bind fun jobs => fits_assume fun hjobs => fits_processJobs hΓ now hjobs

theorem fits_runDueJobs {I : Store ω → Prop} (hI : Stable (exec engine) Γ I)
    (hknown : ∀ s, I s → ∀ job ∈ s.jobs, known job) (now : Option Time) :
    Fits (exec engine) Γ (runDueJobs engine now) I fun _ _ => True := by
  cases now with
  | some now => exact fits_processDue hΓ now hknown
  | none =>
    have hread : Fits (exec engine) Γ (perform .now) I fun _ => I :=
      fits_perform (fun _ => hI) fun s hs => ⟨hΓ s _ (by trivial), hs⟩
    exact hread.bind fun now => fits_processDue hΓ now hknown

end fits

/-! ### What a tick records -/

/-- The job and the instant of a recorded run. -/
def recorded : Event Answer → Option (ℕ × Time)
  | ⟨.record pk _ due _ _, _⟩ => some (pk, due)
  | _ => none

/-- The statements between a claim and its run: the look at the previous run, and the enqueue. -/
def betweenClaimAndRun : Event Answer → Bool
  | ⟨.lastQueued _, _⟩ | ⟨.engineStatus _, _⟩ | ⟨.enqueue _, _⟩ => true
  | _ => false

/-- A claim opens an account, and its run settles it. -/
def claims : Script.Books Answer (ℕ × Time) where
  opens := claimed
  settles := recorded
  waits := betweenClaimAndRun

/-- Where missed runs are to be skipped, they can be counted. -/
def counts (lib : Libraries) (job : ScheduledJob) (now : Time) : Bool :=
  job.catchUp ≠ .skip ||
    job.nextRunAt.all fun due => (missedPeriods lib job.cadence due now).toBool

/-- A claim that is won is one whose missed runs can be counted. -/
def Counted (lib : Libraries) : Event Answer → Prop
  | ⟨.claim job now _, true⟩ => counts lib job now = true
  | _ => True

section settles

variable {E : Event Answer → Prop} {w : Event Answer} {α : Type} {job : ScheduledJob} {due now : Time}

theorem settles_quiet {op : Statement} {f : Answer op → Call α}
    (hop : ∀ a, claimed ⟨op, a⟩ = none ∧ recorded ⟨op, a⟩ = none)
    (hf : ∀ a, Script.Settles claims E [] (f a)) : Script.Settles claims E [] (perform op >>= f) :=
  Script.settles_perform (fun _ => .nil false) fun a => (hf a).quiet (hop a).1 (hop a).2

theorem settles_waits {op : Statement} {f : Answer op → Call α} (hw : recorded w = none)
    (hop : ∀ a, betweenClaimAndRun ⟨op, a⟩ = true ∧ claimed ⟨op, a⟩ = none ∧ recorded ⟨op, a⟩ = none)
    (hf : ∀ a, Script.Settles claims E [w] (f a)) : Script.Settles claims E [w] (perform op >>= f) :=
  Script.settles_perform (fun _ => .singleton hw) fun a =>
    (hf a).waits (hop a).1 (hop a).2.1 (hop a).2.2

theorem settles_record {status : RunStatus} {id : Option Tasks.ResultId} {text : Str}
    {f : Unit → Call α} (hw : claimed w = some (pk, due)) (hnone : recorded w = none)
    (hf : Script.Settles claims E [] (f ())) :
    Script.Settles claims E [w] (perform (.record pk status due id text) >>= f) :=
  Script.settles_perform (fun _ => .singleton hnone) fun _ => hf.settle hw hnone rfl rfl

theorem settles_fire (hw : claimed w = some (job.pk, due)) (hnone : recorded w = none) :
    Script.Settles claims E [w] (fire job due now) := by
  unfold fire enqueueAndRecord
  rw [Script.bind_assoc]
  refine settles_waits hnone (fun _ => ⟨rfl, rfl, rfl⟩) fun a => ?_
  rcases a with (text | text) | id
  · refine settles_record hw hnone ?_
    exact settles_quiet (fun _ => ⟨rfl, rfl⟩) fun _ => Script.settles_ret _
  · refine settles_record hw hnone ?_
    exact settles_quiet (fun _ => ⟨rfl, rfl⟩) fun _ => Script.settles_ret _
  · refine settles_record hw hnone ?_
    exact settles_quiet (fun _ => ⟨rfl, rfl⟩) fun _ => Script.settles_ret _

theorem settles_afterGuard (hw : claimed w = some (job.pk, due)) (hnone : recorded w = none)
    (hdue : job.nextRunAt = some due) (hcounts : counts engine.lib job now = true) (active : Bool) :
    Script.Settles claims E [w] (afterGuard engine job due now active) := by
  unfold afterGuard
  cases active with
  | true => exact settles_record hw hnone (Script.settles_ret _)
  | false =>
    simp only [Bool.false_eq_true, if_false]
    split
    · rename_i hmissed
      exfalso
      by_cases hskip : job.catchUp = .skip
      · rw [if_pos hskip] at hmissed
        simp [counts, hskip, hdue, hmissed, Except.toBool] at hcounts
      · rw [if_neg hskip] at hmissed
        cases hmissed
    · exact settles_fire hw hnone
    · exact settles_record hw hnone (Script.settles_ret _)

theorem settles_afterClaim (hw : claimed w = some (job.pk, due)) (hnone : recorded w = none)
    (hdue : job.nextRunAt = some due) (hcounts : counts engine.lib job now = true) :
    Script.Settles claims E [w] (afterClaim engine job due now) := by
  have hrest := settles_afterGuard (E := E) hw hnone hdue hcounts
  unfold afterClaim
  cases job.allowOverlap with
  | true => exact hrest false
  | false =>
    unfold previousRunActive
    simp only [Bool.false_eq_true, if_false, Script.bind_assoc]
    refine settles_waits hnone (fun _ => ⟨rfl, rfl, rfl⟩) fun a => ?_
    cases a with
    | none => exact hrest false
    | some last =>
      dsimp only
      cases last.taskResultId with
      | none => exact hrest false
      | some id =>
        dsimp only
        split
        · exact hrest false
        · exact settles_waits hnone (fun _ => ⟨rfl, rfl, rfl⟩) fun _ => hrest _

theorem settles_processJobBody :
    Script.Settles claims (Counted engine.lib) [] (processJobBody engine job now) := by
  unfold processJobBody
  cases hnext : job.nextRunAt with
  | none => exact Script.settles_ret _
  | some due =>
    dsimp only
    cases nextRun engine.lib engine.lib.utc job.cadence now with
    | error e =>
      cases e with
      | config => exact settles_quiet (fun _ => ⟨rfl, rfl⟩) fun _ => Script.settles_ret _
      | uncaught => exact Script.settles_ret _
    | ok next =>
      refine Script.settles_perform (fun _ => .nil false) fun won => ?_
      cases won with
      | false => exact (Script.settles_ret _).quiet rfl rfl
      | true =>
        refine Script.settles_of_imp fun hcounted => ?_
        have hcounts : counts engine.lib job now = true := hcounted _ List.mem_cons_self
        have hw : claimed ⟨.claim job now next, true⟩ = some (job.pk, due) := by
          simp [claimed, hnext]
        exact (settles_afterClaim hw rfl hnext hcounts).bind fun _ => Script.settles_ret _

theorem settles_processDue (now : Time) :
    Script.Settles claims (Counted engine.lib) [] (processDue engine now) := by
  refine settles_quiet (fun _ => ⟨rfl, rfl⟩) fun jobs => ?_
  induction jobs with
  | nil => exact Script.settles_ret _
  | cons job jobs ih =>
    refine settles_processJobBody.bind fun _ => ?_
    exact Script.Settles.bind ih fun _ => Script.settles_ret _

theorem settles_runDueJobs (now : Option Time) :
    Script.Settles claims (Counted engine.lib) [] (runDueJobs engine now) := by
  cases now with
  | some now => exact settles_processDue now
  | none => exact settles_quiet (fun _ => ⟨rfl, rfl⟩) settles_processDue

end settles

/-! ### The instants of a job -/

section instants

variable {history : List (ℕ × Event Answer)} {due next : Time}

/-- The instants of a job that ticks have claimed, oldest first. -/
def instants (pk : ℕ) (history : List (ℕ × Event Answer)) : List Time :=
  history.filterMap fun e => (claimed e.2).bind fun key => if key.1 = pk then some key.2 else none

/-- The claimed instants of each job go up, and its cursor is ahead of them. -/
structure Ordered (history : List (ℕ × Event Answer)) (s : Store ω) : Prop where
  increasing : ∀ pk, (instants pk history).Pairwise (· < ·)
  passed : ∀ pk, ∀ due ∈ instants pk history, ∀ next, s.cursor pk = some next → due < next

theorem ordered_start (s : Store ω) : Ordered [] s := by
  refine ⟨fun pk => List.Pairwise.nil, ?_⟩
  intro pk due hdue
  cases hdue

theorem instants_append (pk : ℕ) (history : List (ℕ × Event Answer)) (e : ℕ × Event Answer) :
    instants pk (history ++ [e]) = instants pk history ++
      (((claimed e.2).bind fun key => if key.1 = pk then some key.2 else none).toList) := by
  cases hkey : (claimed e.2).bind fun key => if key.1 = pk then some key.2 else none with
  | none => simp [instants, hkey]
  | some due => simp [instants, hkey]

theorem instants_append_of_none {e : ℕ × Event Answer} (h : claimed e.2 = none) :
    instants pk (history ++ [e]) = instants pk history := by
  rw [instants_append, h]
  exact List.append_nil _

/-- Claims keep the order where they move the cursor on, and saves where they write no instant that
has passed. -/
theorem Ordered.step (h : Ordered history s) (engine : Engine ω) (i : ℕ) (op : Statement)
    (hclaim : ∀ job now next, op = .claim job now next → s.cursor job.pk = job.nextRunAt →
      ∃ due, job.nextRunAt = some due ∧ ∀ t, next = some t → due < t)
    (hsave : ∀ loaded copy seeded, op = .save loaded copy seeded → ∀ due ∈ instants copy.pk history, ∀ next,
      (s.job copy.pk).bind (fun _ => copy.nextRunAt) = some next → due < next) :
    Ordered (history ++ [(i, ⟨op, (exec engine op s).1⟩)]) (exec engine op s).2 := by
  rcases exec_cursor engine op s with
    ⟨job, now, next, hop, hseen, hevent, hcursor⟩ | ⟨loaded, copy, seeded, hop, hclaimed, hcursor⟩ |
    ⟨hclaimed, hcursor⟩
  · obtain ⟨due, hdue, hnext⟩ := hclaim job now next hop hseen
    rw [hdue] at hseen
    have hclaimed : claimed ⟨op, (exec engine op s).1⟩ = some (job.pk, due) := by
      rw [hevent]
      simp [claimed, hdue]
    have hinstants : ∀ pk, instants pk (history ++ [(i, ⟨op, (exec engine op s).1⟩)]) =
        instants pk history ++ if job.pk = pk then [due] else [] := by
      intro pk
      rw [instants_append, hclaimed]
      by_cases hpk : job.pk = pk <;> simp [hpk]
    refine ⟨?_, ?_⟩
    · intro pk
      rw [hinstants]
      by_cases hpk : job.pk = pk
      · subst hpk
        rw [if_pos rfl, List.pairwise_append]
        refine ⟨h.increasing job.pk, List.pairwise_singleton _ _, ?_⟩
        intro t ht t' ht'
        rw [List.mem_singleton] at ht'
        subst ht'
        exact h.passed job.pk t ht _ hseen
      · rw [if_neg hpk, List.append_nil]
        exact h.increasing pk
    · intro pk t ht t' ht'
      rw [hinstants] at ht
      rw [hcursor] at ht'
      by_cases hpk : pk = job.pk
      · subst hpk
        rw [if_pos rfl] at ht ht'
        rcases List.mem_append.mp ht with ht | ht
        · exact (h.passed job.pk t ht due hseen).trans (hnext t' ht')
        · rw [List.mem_singleton] at ht
          subst ht
          exact hnext t' ht'
      · rw [if_neg hpk] at ht'
        rw [if_neg (Ne.symm hpk), List.append_nil] at ht
        exact h.passed pk t ht t' ht'
  · refine ⟨?_, ?_⟩
    · intro pk
      rw [instants_append_of_none hclaimed]
      exact h.increasing pk
    · intro pk t ht t' ht'
      rw [instants_append_of_none hclaimed] at ht
      rw [hcursor] at ht'
      by_cases hpk : pk = copy.pk
      · subst hpk
        rw [if_pos rfl] at ht'
        exact hsave loaded copy seeded hop t ht t' ht'
      · rw [if_neg hpk] at ht'
        exact h.passed pk t ht t' ht'
  · refine ⟨?_, ?_⟩
    · intro pk
      rw [instants_append_of_none hclaimed]
      exact h.increasing pk
    · intro pk t ht t' ht'
      rw [instants_append_of_none hclaimed] at ht
      rw [hcursor] at ht'
      exact h.passed pk t ht t' ht'

/-- What is claimed in order is claimed once. -/
theorem Ordered.once (h : Ordered history s) (key : ℕ × Time) :
    (history.countP fun e => claimed e.2 = some key) ≤ 1 := by
  have hnodup : (instants key.1 history).Nodup := (h.increasing key.1).imp ne_of_lt
  have hcount : (instants key.1 history).count key.2 =
      history.countP fun e => claimed e.2 = some key := by
    rw [instants, List.count_eq_countP, List.countP_filterMap]
    apply List.countP_congr
    intro e _
    cases hclaimed : claimed e.2 with
    | none => simp
    | some key' =>
      obtain ⟨k, t⟩ := key
      obtain ⟨k', t'⟩ := key'
      by_cases hk : k' = k <;> simp [hk]
  rw [← hcount]
  exact List.nodup_iff_count_le_one.mp hnodup key.2

end instants

/-! ### The runs -/

/-- The job and the instant of a run. -/
def ScheduledJobRun.key (run : ScheduledJobRun) : ℕ × Time := (run.job, run.scheduledFor)

/-- The runs behind these are those that the history has recorded, and none is a success. -/
def Records (runs : List ScheduledJobRun) (history : List (ℕ × Event Answer)) (s : Store ω) : Prop :=
  ∃ new, s.runs = runs ++ new ∧
    new.map ScheduledJobRun.key = history.filterMap (fun e => recorded e.2) ∧
    ∀ run ∈ new, run.status ≠ .success

/-- A statement that records nothing. -/
theorem Records.keep {runs : List ScheduledJobRun} {history : List (ℕ × Event Answer)}
    {s' : Store ω} {e : ℕ × Event Answer} (h : Records runs history s) (hruns : s'.runs = s.runs)
    (he : recorded e.2 = none) : Records runs (history ++ [e]) s' := by
  obtain ⟨new, hnew, hkeys, hstatus⟩ := h
  exact ⟨new, hruns.trans hnew, by simp [hkeys, he], hstatus⟩

theorem Records.step {runs : List ScheduledJobRun} {history : List (ℕ × Event Answer)}
    (h : Records runs history s) (engine : Engine ω) (i : ℕ) {op : Statement}
    {known : ScheduledJob → Prop} (hop : Ticking engine known op) :
    Records runs (history ++ [(i, ⟨op, (exec engine op s).1⟩)]) (exec engine op s).2 := by
  cases op with
  | record pk status due id text =>
    obtain ⟨new, hruns, hkeys, hstatus⟩ := h
    refine ⟨new ++ [⟨s.runs.length, pk, status, due, s.clock, id, text⟩], ?_, ?_, ?_⟩
    · simp [exec, hruns]
    · simp [hkeys, recorded, ScheduledJobRun.key]
    · intro run hrun
      rcases List.mem_append.mp hrun with hrun | hrun
      · exact hstatus run hrun
      · rw [List.mem_singleton] at hrun
        subst hrun
        exact hop
  | claim job now next =>
    apply h.keep _ rfl
    simp only [exec]
    split <;> rfl
  | save loaded copy seeded | saveRun pk status text => exact hop.elim
  | _ => exact h.keep rfl rfl

/-! ### Ticks -/

/-- Ticks, and what goes on besides. -/
def Job.beats : Job → Bool
  | .tick _ | .work _ | .elapse _ => true
  | .edit _ _ | .runNow _ | .reconcile _ => false

abbrev Beat := {job : Job // job.beats = true}

abbrev Ticks (ω : Type) := Session Statement Answer (Store ω) Beat Unit

def Beat.script (engine : Engine ω) (beat : Beat) : Call Unit := beat.1.script engine

def runTicks (engine : Engine ω) (s : Store ω) (moves : List (Move Beat)) : Ticks ω :=
  Session.run (exec engine) (Beat.script engine) { store := s } moves

/-- A claim gets somewhere: its calendar interval passes the tick, and its missed runs can be
counted. -/
def keepsUp (engine : Engine ω) (s : Store ω) : Statement → Bool
  | .claim job now _ => s.cursor job.pk ≠ job.nextRunAt ||
      (reaches engine.lib job.cadence now && counts engine.lib job now)
  | _ => true

theorem fits_beat {Γ : Store ω → Statement → Prop} {known : ScheduledJob → Prop}
    {I : Store ω → Prop} (hΓ : ∀ s op, Ticking engine known op → Γ s op)
    (hI : Stable (exec engine) Γ I) (hknown : ∀ s, I s → ∀ job ∈ s.jobs, known job) (beat : Beat) :
    Fits (exec engine) Γ (Beat.script engine beat) I fun _ _ => True := by
  obtain ⟨job, hbeats⟩ := beat
  cases job with
  | tick now => exact (fits_runDueJobs hΓ hI hknown now).bind fun _ => fits_end _
  | work step => exact (fits_statement hΓ (by trivial) fits_end).before fun _ _ => trivial
  | elapse d => exact (fits_statement hΓ (by trivial) fits_end).before fun _ _ => trivial
  | edit pk filled | runNow pk | reconcile limit => cases hbeats

theorem settles_beat (beat : Beat) :
    Script.Settles claims (Counted engine.lib) [] (Beat.script engine beat) := by
  obtain ⟨job, hbeats⟩ := beat
  cases job with
  | tick now => exact (settles_runDueJobs now).bind fun _ => Script.settles_ret _
  | work step => exact settles_quiet (fun _ => ⟨rfl, rfl⟩) Script.settles_ret
  | elapse d => exact settles_quiet (fun _ => ⟨rfl, rfl⟩) Script.settles_ret
  | edit pk filled | runNow pk | reconcile limit => cases hbeats

/-- Each job and instant is claimed once, the instants of a job go up and its cursor is ahead of
them, and a claim whose tick has gone on has left one run. -/
structure FiresOnce (s : Store ω) (y : Ticks ω) : Prop where
  once : ∀ key, (y.history.countP fun e => claimed e.2 = some key) ≤ 1
  ordered : Ordered y.history y.store
  leaves : ∀ (i : ℕ) thread, y.threads[i]? = some thread → ∀ before claim after key,
    y.trace i = before ++ claim :: after → claimed claim = some key →
    thread.rest.result.isSome = true ∨ (∃ e ∈ after, betweenClaimAndRun e = false) →
    ∃ run, (y.store.runs.drop s.runs.length).filter (fun run => run.key = key) = [run] ∧
      run.status ∈ [RunStatus.queued, .skipped, .failed]

/-- What ticks keep of the history and the store. -/
structure Ticked (engine : Engine ω) (runs : List ScheduledJobRun)
    (history : List (ℕ × Event Answer)) (s : Store ω) : Prop where
  ordered : Ordered history s
  counted : ∀ e ∈ history, Counted engine.lib e.2
  records : Records runs history s

theorem Ticked.step {runs : List ScheduledJobRun} {history : List (ℕ × Event Answer)}
    (h : Ticked engine runs history s) (hlib : engine.lib.Forward) (i : ℕ) {op : Statement}
    (hop : Ticking engine (fun _ => True) op) (hkeeps : keepsUp engine s op = true) :
    Ticked engine runs (history ++ [(i, ⟨op, (exec engine op s).1⟩)]) (exec engine op s).2 := by
  refine ⟨?_, ?_, h.records.step engine i hop⟩
  · apply h.ordered.step engine i op
    · rintro job now next rfl hseen
      obtain ⟨-, hrun, due, hdue, hle⟩ := hop
      have hreaches : reaches engine.lib job.cadence now = true := by
        simp only [keepsUp, hseen, ne_eq, not_true_eq_false, decide_false, Bool.false_or,
          Bool.and_eq_true] at hkeeps
        exact hkeeps.1
      refine ⟨due, hdue, ?_⟩
      rintro t rfl
      exact hle.trans_lt (nextRun_gt hlib hreaches hrun)
    · rintro loaded copy seeded rfl
      exact hop.elim
  · intro e he
    rcases List.mem_append.mp he with he | he
    · exact h.counted e he
    · rw [List.mem_singleton] at he
      subst he
      cases op with
      | claim job now next =>
        cases hwon : (exec engine (.claim job now next) s).1 with
        | false => trivial
        | true =>
          rcases exec_cursor engine (.claim job now next) s with
            ⟨job', now', next', hop', hseen, -⟩ | ⟨loaded, copy, seeded, hop', -⟩ |
            ⟨hclaimed, -⟩
          · cases hop'
            simp only [keepsUp, hseen, ne_eq, not_true_eq_false, decide_false, Bool.false_or,
              Bool.and_eq_true] at hkeeps
            exact hkeeps.2
          · cases hop'
          · obtain ⟨-, -, due, hdue, -⟩ := hop
            simp [claimed, hwon, hdue] at hclaimed
      | _ => trivial

/-- As long as its claims get somewhere, no tick fires what another one has fired. -/
theorem ticks_fire_once (engine : Engine ω) (hlib : engine.lib.Forward) (s : Store ω)
    (moves : List (Move Beat))
    (hkeeps : Session.Meets (exec engine) (Beat.script engine)
      (fun _ s op => keepsUp engine s op = true) { store := s } moves) :
    FiresOnce s (runTicks engine s moves) := by
  have hstart : Session.Sound (exec engine) (fun _ op => Ticking engine (fun _ => True) op)
      (fun _ => True)
      ({ store := s } : Ticks ω) := ⟨trivial, by simp⟩
  have hfits := fits_beat (Γ := fun _ op => Ticking engine (fun _ => True) op) (fun _ _ h => h)
    (stable_const True) fun _ _ _ _ => trivial
  have hticked : Ticked engine s.runs (runTicks engine s moves).history
      (runTicks engine s moves).store := by
    apply (hstart.run (stable_const True) hfits moves hkeeps ?_ ?_).2
    · intro history s' i op _ hop hkeeps h
      exact h.step hlib i hop hkeeps
    · exact ⟨ordered_start s, by simp, [], by simp, rfl, by simp⟩
  refine ⟨hticked.ordered.once, hticked.ordered, ?_⟩
  intro i thread hthread before claim after key htrace hclaimed hgone
  have hsettled : ∀ j thread, (runTicks engine s moves).threads[j]? = some thread →
      claims.Settled ((runTicks engine s moves).trace j) thread.rest.result.isSome := by
    intro j thread hj
    apply Session.traced s moves hj (settles_beat thread.job)
    intro e he
    obtain ⟨e', he', rfl⟩ := List.mem_map.mp he
    exact hticked.counted e' (List.mem_filter.mp he').1
  obtain ⟨x, hx, hrecorded⟩ :=
    (hsettled i thread hthread).settled before claim after key htrace hclaimed hgone
  have hone := Session.countP_settles_eq_one (B := claims) ?_ (hticked.ordered.once key) htrace
    hclaimed hx hrecorded
  · obtain ⟨new, hruns, hkeys, hstatus⟩ := hticked.records
    rw [hruns, List.drop_left]
    have hlength : (new.filter fun run => run.key = key).length = 1 := by
      rw [← hone, ← List.countP_eq_length_filter]
      have hcount : (new.map ScheduledJobRun.key).countP (· = key) =
          (runTicks engine s moves).history.countP fun e => recorded e.2 = some key := by
        rw [hkeys, List.countP_filterMap]
        apply List.countP_congr
        intro e _
        cases recorded e.2 <;> simp
      rw [List.countP_map] at hcount
      exact hcount
    obtain ⟨run, hrun⟩ := List.length_eq_one_iff.mp hlength
    refine ⟨run, hrun, ?_⟩
    have hmem : run ∈ new := (List.mem_filter.mp (hrun ▸ List.mem_singleton_self run)).1
    have := hstatus run hmem
    cases h : run.status <;> simp_all
  · intro j
    cases hj : (runTicks engine s moves).threads[j]? with
    | none =>
        have hnil : (runTicks engine s moves).trace j = [] := Session.trace_of_none s moves hj
        simp [hnil]
    | some thread => exact (hsettled j thread hj).le key

end CwStation.Scheduler
