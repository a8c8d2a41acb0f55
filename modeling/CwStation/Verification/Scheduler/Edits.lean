import CwStation.Verification.Scheduler.Gregorian

/-! # Edits of jobs that ticks move on -/

namespace CwStation.Scheduler

open Tasks (Time seconds)
open Scripts

variable {ω : Type} {engine : Engine ω} {s : Store ω} {pk : ℕ} {cadences : ℕ → Option Cadence}

/-! ### What an edit keeps to -/

/-- A job has the cadence that jobs of its key have. -/
def HasCadence (cadences : ℕ → Option Cadence) (job : ScheduledJob) : Prop :=
  cadences job.pk = some job.cadence

/-- The cursor that a save writes is the one that was loaded, or it has been computed because there
was none. -/
def Seeds (lib : Libraries) (loaded copy : ScheduledJob) : Option Time → Prop
  | none => copy.nextRunAt = loaded.nextRunAt
  | some now => loaded.nextRunAt = none ∧ (copy.nextRunAt = none ∨
      nextRun lib (lib.zone lib.currentTimezone) copy.cadence now = .ok copy.nextRunAt)

/-- What ticks keep to, and edits that leave the cadence as it is. -/
def Editing (engine : Engine ω) (cadences : ℕ → Option Cadence) : Statement → Prop
  | .save loaded copy seeded => HasCadence cadences copy ∧ Seeds engine.lib loaded copy seeded
  | op => Ticking engine (HasCadence cadences) op

theorem editing_of_ticking {op : Statement} (h : Ticking engine (HasCadence cadences) op) :
    Editing engine cadences op := by
  cases op with
  | save loaded copy seeded => exact h.elim
  | _ => exact h

/-- Every job has its cadence. -/
def KeepsCadences (cadences : ℕ → Option Cadence) (s : Store ω) : Prop :=
  ∀ job ∈ s.jobs, HasCadence cadences job

theorem KeepsCadences.alter (h : KeepsCadences cadences s) {f : ScheduledJob → ScheduledJob} {k : ℕ}
    (hf : ∀ r, r.pk = k → HasCadence cadences r → HasCadence cadences (f r)) :
    KeepsCadences cadences (s.alter k f) := by
  intro job hjob
  obtain ⟨r, hr, rfl⟩ := Table.mem_alter hjob
  by_cases hk : r.pk = k
  · rw [if_pos hk]
    exact hf r hk (h r hr)
  · rw [if_neg hk]
    exact h r hr

theorem keepsCadences_stable (engine : Engine ω) (cadences : ℕ → Option Cadence) :
    Stable (exec engine) (fun _ op => Editing engine cadences op) (KeepsCadences cadences) := by
  intro s op h hop
  cases op with
  | claim job now next =>
    simp only [exec]
    split
    · exact h.alter fun r _ hr => hr
    · exact h
  | disable _ | book _ _ | markStatus _ _ => exact h.alter fun r _ hr => hr
  | save loaded copy seeded => exact h.alter fun _ _ _ => hop.1
  | _ => exact h

/-- A loaded row has its cadence. -/
theorem KeepsCadences.load (h : KeepsCadences cadences s) {row : ScheduledJob}
    (hrow : s.job pk = some row) : row.pk = pk ∧ HasCadence cadences row :=
  ⟨Table.key_of_get hrow, h row (Table.get_mem hrow)⟩

section fits

variable {job loaded : ScheduledJob}

/-- A read keeps the cadences. -/
theorem fits_read {op : Statement} (fact : Answer op → Prop) (hop : Editing engine cadences op)
    (hread : ∀ s, KeepsCadences cadences s → fact (exec engine op s).1) :
    Fits (exec engine) (fun _ op => Editing engine cadences op) (perform op)
      (KeepsCadences cadences) fun a s => KeepsCadences cadences s ∧ fact a :=
  fits_perform (fun _ => (keepsCadences_stable engine cadences).and (stable_const _))
    fun s hs => ⟨hop, keepsCadences_stable engine cadences s op hs hop, hread s hs⟩

theorem fits_save {copy : ScheduledJob} {seeded : Option Time} {α : Type} {a : α}
    (hcopy : HasCadence cadences copy) (hseeds : Seeds engine.lib loaded copy seeded) :
    Fits (exec engine) (fun _ op => Editing engine cadences op)
      (do perform (.save loaded copy seeded); return a) (KeepsCadences cadences) fun _ _ => True :=
  (fits_perform (fun _ => stable_const True) fun _ _ => ⟨⟨hcopy, hseeds⟩, trivial⟩).bind
    fun _ => fits_end a

theorem fits_storeJob (hjob : HasCadence cadences job) (hnext : job.nextRunAt = loaded.nextRunAt) :
    Fits (exec engine) (fun _ op => Editing engine cadences op) (storeJob engine.lib loaded job)
      (KeepsCadences cadences) fun _ _ => True := by
  refine (fits_read (fun old => ∀ row, old = some row → row.cadence = job.cadence)
    (by trivial) ?_).bind fun old => fits_assume fun hold => ?_
  · intro s hs row hrow
    obtain ⟨hpk, hcadence⟩ := hs.load hrow
    rw [HasCadence, hpk, hjob] at hcadence
    exact (Option.some.inj hcadence).symm
  have hunchanged : (old.any fun old => old.cadence ≠ job.cadence) = false := by
    cases old with
    | none => rfl
    | some row => simp [hold row rfl]
  simp only [hunchanged, Bool.or_false]
  by_cases hseed : (job.enabled && job.nextRunAt.isNone) = true
  · rw [if_pos hseed]
    have hnone : loaded.nextRunAt = none :=
      hnext ▸ Option.isNone_iff_eq_none.mp (Bool.and_eq_true_iff.mp hseed).2
    refine (fits_read (fun _ => True) (by trivial) fun _ _ => trivial).bind fun now =>
      fits_assume fun _ => ?_
    cases hrun : nextRun engine.lib (engine.lib.zone engine.lib.currentTimezone) job.cadence now with
    | error e =>
      cases e with
      | config => exact fits_save hjob ⟨hnone, .inl rfl⟩
      | uncaught => exact (fits_end _).before fun _ _ => trivial
    | ok next => exact fits_save hjob ⟨hnone, .inr hrun⟩
  · rw [if_neg hseed]
    exact fits_save hjob hnext

/-- The cadences are as `save` leaves them. -/
def Normalized (lib : Libraries) (cadences : ℕ → Option Cadence) : Prop :=
  ∀ pk c, cadences pk = some c → c.normalized lib = c

variable (hnormalized : Normalized engine.lib cadences)

include hnormalized

theorem fits_saveJob (hjob : HasCadence cadences job) (hnext : job.nextRunAt = loaded.nextRunAt) :
    Fits (exec engine) (fun _ op => Editing engine cadences op) (saveJob engine.lib loaded job)
      (KeepsCadences cadences) fun _ _ => True := by
  have hcadence := hnormalized job.pk job.cadence hjob
  rw [saveJob, hcadence]
  exact fits_storeJob hjob hnext

theorem fits_saveForm {filled : Edit} (hfilled : filled.cadence = none)
    (hloaded : HasCadence cadences loaded) :
    Fits (exec engine) (fun _ op => Editing engine cadences op)
      (saveForm engine.lib filled loaded) (KeepsCadences cadences) fun _ _ => True := by
  have hjob : HasCadence cadences (filled.apply loaded) := by
    simpa [HasCadence, Edit.apply, hfilled] using hloaded
  unfold saveForm
  dsimp only
  split
  · exact fits_saveJob hnormalized hjob rfl
  · refine (fits_read (fun _ => True) (by trivial) fun _ _ => trivial).bind fun previous =>
      fits_assume fun _ => ?_
    exact fits_saveJob hnormalized hjob rfl

theorem fits_editJob {filled : Edit} (hfilled : filled.cadence = none) (pk : ℕ) :
    Fits (exec engine) (fun _ op => Editing engine cadences op) (editJob engine.lib pk filled)
      (KeepsCadences cadences) fun _ _ => True := by
  refine (fits_read (fun row => ∀ loaded, row = some loaded → HasCadence cadences loaded)
    (by trivial) ?_).bind fun row => fits_assume fun hrow => ?_
  · intro s hs loaded hloaded
    exact (hs.load hloaded).2
  cases row with
  | none => exact (fits_end _).before fun _ _ => trivial
  | some loaded =>
    exact (fits_saveForm hnormalized hfilled (hrow loaded rfl)).bind fun _ => fits_end _

end fits

/-! ### What is enqueued has been claimed -/

/-- The job and the instant of a task that a tick has enqueued. -/
def enqueued : Event Answer → Option (ℕ × Time)
  | ⟨.enqueue job, .ok _⟩ => job.nextRunAt.map fun due => (job.pk, due)
  | _ => none

section covers

variable {w : Event Answer} {α : Type} {job : ScheduledJob} {due now : Time}

theorem covers_quiet {op : Statement} {f : Answer op → Call α}
    (hop : ∀ a, claimed ⟨op, a⟩ = none ∧ enqueued ⟨op, a⟩ = none)
    (hf : ∀ a, Script.Covers claimed enqueued [] (f a)) :
    Script.Covers claimed enqueued [] (perform op >>= f) :=
  Script.covers_perform Script.covered_nil fun a => (hf a).quiet (hop a).1 (hop a).2

/-- One claim covers one task. -/
theorem covered_claim (hw : claimed w = some (job.pk, due)) (hnone : enqueued w = none)
    (hdue : job.nextRunAt = some due) (result : Except EnqueueError Tasks.ResultId) :
    Script.Covered claimed enqueued [w, ⟨.enqueue job, result⟩] := by
  intro key
  have hno : claimed ⟨.enqueue job, result⟩ = none := rfl
  cases result with
  | error e =>
    have hfailed : enqueued ⟨.enqueue job, .error e⟩ = none := rfl
    simp [List.countP_cons, hnone, hfailed]
  | ok id =>
    have htask : enqueued ⟨.enqueue job, .ok id⟩ = some (job.pk, due) := by
      simp [enqueued, hdue]
    simp [List.countP_cons, hw, hnone, hno, htask]

theorem covers_fire (hw : claimed w = some (job.pk, due)) (hnone : enqueued w = none)
    (hdue : job.nextRunAt = some due) :
    Script.Covers claimed enqueued [w] (fire job due now) := by
  have hw' : Script.Covered claimed enqueued [w] := by
    intro key
    simp [List.countP_cons, hnone]
  unfold fire enqueueAndRecord
  rw [Script.bind_assoc]
  refine Script.covers_perform hw' fun a => Script.Covers.behind ?_ (covered_claim hw hnone hdue a)
  rcases a with (text | text) | id <;>
    exact covers_quiet (fun _ => ⟨rfl, rfl⟩) fun _ =>
      covers_quiet (fun _ => ⟨rfl, rfl⟩) fun _ => Script.covers_ret _

theorem covers_afterGuard (hw : claimed w = some (job.pk, due)) (hnone : enqueued w = none)
    (hdue : job.nextRunAt = some due) (active : Bool) :
    Script.Covers claimed enqueued [w] (afterGuard engine job due now active) := by
  have hw' : Script.Covered claimed enqueued [w] := by
    intro key
    simp [List.countP_cons, hnone]
  unfold afterGuard
  cases active with
  | true =>
    exact (covers_quiet (fun _ => ⟨rfl, rfl⟩) fun _ => Script.covers_ret _).behind hw'
  | false =>
    simp only [Bool.false_eq_true, if_false]
    split
    · exact (Script.covers_ret _).behind hw'
    · exact covers_fire hw hnone hdue
    · exact (covers_quiet (fun _ => ⟨rfl, rfl⟩) fun _ => Script.covers_ret _).behind hw'

theorem covers_afterClaim (hw : claimed w = some (job.pk, due)) (hnone : enqueued w = none)
    (hdue : job.nextRunAt = some due) :
    Script.Covers claimed enqueued [w] (afterClaim engine job due now) := by
  have hrest : ∀ active, Script.Covers claimed enqueued [w] (afterGuard engine job due now active) :=
    covers_afterGuard hw hnone hdue
  have hw' : Script.Covered claimed enqueued [w] := by
    intro key
    simp [List.countP_cons, hnone]
  unfold afterClaim
  cases job.allowOverlap with
  | true => exact hrest false
  | false =>
    unfold previousRunActive
    simp only [Bool.false_eq_true, if_false, Script.bind_assoc]
    refine Script.covers_perform hw' fun a => Script.Covers.quiet ?_ rfl rfl
    cases a with
    | none => exact hrest false
    | some last =>
      dsimp only
      cases last.taskResultId with
      | none => exact hrest false
      | some id =>
        dsimp only
        split
        · exact hrest false
        · exact Script.covers_perform hw' fun _ => Script.Covers.quiet (hrest _) rfl rfl

theorem covers_processJobBody :
    Script.Covers claimed enqueued [] (processJobBody engine job now) := by
  unfold processJobBody
  cases hnext : job.nextRunAt with
  | none => exact Script.covers_ret _
  | some due =>
    dsimp only
    cases nextRun engine.lib engine.lib.utc job.cadence now with
    | error e =>
      cases e with
      | config => exact covers_quiet (fun _ => ⟨rfl, rfl⟩) fun _ => Script.covers_ret _
      | uncaught => exact Script.covers_ret _
    | ok next =>
      refine Script.covers_perform Script.covered_nil fun won => ?_
      cases won with
      | false => exact Script.Covers.quiet (Script.covers_ret _) rfl rfl
      | true =>
        have hw : claimed ⟨.claim job now next, true⟩ = some (job.pk, due) := by
          simp [claimed, hnext]
        exact (covers_afterClaim hw rfl hnext).bind fun _ => Script.covers_ret _

theorem covers_processDue (now : Time) :
    Script.Covers claimed enqueued [] (processDue engine now) := by
  refine covers_quiet (fun _ => ⟨rfl, rfl⟩) fun jobs => ?_
  induction jobs with
  | nil => exact Script.covers_ret _
  | cons job jobs ih =>
    refine covers_processJobBody.bind fun _ => ?_
    exact Script.Covers.bind ih fun _ => Script.covers_ret _

theorem covers_runDueJobs (now : Option Time) :
    Script.Covers claimed enqueued [] (runDueJobs engine now) := by
  cases now with
  | some now => exact covers_processDue now
  | none => exact covers_quiet (fun _ => ⟨rfl, rfl⟩) covers_processDue

theorem covers_storeJob (loaded job : ScheduledJob) :
    Script.Covers claimed enqueued [] (storeJob engine.lib loaded job) := by
  refine covers_quiet (fun _ => ⟨rfl, rfl⟩) fun old => ?_
  dsimp only
  split
  · refine covers_quiet (fun _ => ⟨rfl, rfl⟩) fun now => ?_
    split
    · exact Script.covers_ret _
    · exact covers_quiet (fun _ => ⟨rfl, rfl⟩) fun _ => Script.covers_ret _
    · exact covers_quiet (fun _ => ⟨rfl, rfl⟩) fun _ => Script.covers_ret _
  · exact covers_quiet (fun _ => ⟨rfl, rfl⟩) fun _ => Script.covers_ret _

theorem covers_editJob (pk : ℕ) (filled : Edit) :
    Script.Covers claimed enqueued [] (editJob engine.lib pk filled) := by
  refine covers_quiet (fun _ => ⟨rfl, rfl⟩) fun row => ?_
  cases row with
  | none => exact Script.covers_ret _
  | some loaded =>
    have hform : Script.Covers claimed enqueued [] (saveForm engine.lib filled loaded) := by
      unfold saveForm
      dsimp only
      split
      · exact covers_storeJob _ _
      · exact covers_quiet (fun _ => ⟨rfl, rfl⟩) fun _ => covers_storeJob _ _
    exact hform.bind fun _ => Script.covers_ret _

end covers

/-! ### Ticks and edits -/

/-- Ticks, edits that leave the cadence as it is, and what goes on besides. -/
def Job.keepsCadence : Job → Bool
  | .edit _ filled => filled.cadence.isNone
  | job => job.beats

abbrev Turn := {job : Job // job.keepsCadence = true}

abbrev Edits (ω : Type) := Session Statement Answer (Store ω) Turn Unit

def Turn.script (engine : Engine ω) (turn : Turn) : Call Unit := turn.1.script engine

def runEdits (engine : Engine ω) (s : Store ω) (moves : List (Move Turn)) : Edits ω :=
  Session.run (exec engine) (Turn.script engine) { store := s } moves

theorem fits_turn (hnormalized : Normalized engine.lib cadences) (turn : Turn) :
    Fits (exec engine) (fun _ op => Editing engine cadences op) (Turn.script engine turn)
      (KeepsCadences cadences) fun _ _ => True := by
  have hbeat : ∀ beat : Beat, Fits (exec engine) (fun _ op => Editing engine cadences op)
      (Beat.script engine beat) (KeepsCadences cadences) fun _ _ => True :=
    fits_beat (fun _ _ h => editing_of_ticking h) (keepsCadences_stable engine cadences) fun _ h => h
  obtain ⟨job, hkeeps⟩ := turn
  cases job with
  | edit pk filled =>
    exact (fits_editJob hnormalized (Option.isNone_iff_eq_none.mp hkeeps) pk).bind fun _ => fits_end _
  | tick now => exact hbeat ⟨.tick now, rfl⟩
  | work step => exact hbeat ⟨.work step, rfl⟩
  | elapse d => exact hbeat ⟨.elapse d, rfl⟩
  | runNow pk | reconcile limit => cases hkeeps

theorem covers_turn (turn : Turn) :
    Script.Covers claimed enqueued [] (Turn.script engine turn) := by
  obtain ⟨job, hkeeps⟩ := turn
  cases job with
  | edit pk filled => exact (covers_editJob pk filled).bind fun _ => Script.covers_ret _
  | tick now => exact (covers_runDueJobs now).bind fun _ => Script.covers_ret _
  | work step => exact covers_quiet (fun _ => ⟨rfl, rfl⟩) Script.covers_ret
  | elapse d => exact covers_quiet (fun _ => ⟨rfl, rfl⟩) Script.covers_ret
  | runNow pk | reconcile limit => cases hkeeps

/-- The job that a tick has claimed, and the moment of the tick. -/
def claimedAt : Event Answer → Option (ℕ × Time)
  | ⟨.claim job now _, true⟩ => some (job.pk, now)
  | _ => none

/-- A claim gets somewhere; a form saves a row whose cursor is as it was loaded, and computes a new
one from no moment before the ticks that have claimed the job. -/
def inTurn (lib : Libraries) (history : List (ℕ × Event Answer)) (s : Store ω) : Statement → Bool
  | .claim job now _ => s.cursor job.pk ≠ job.nextRunAt || reaches lib job.cadence now
  | .save loaded copy seeded => s.cursor copy.pk = loaded.nextRunAt &&
      seeded.all fun now => history.all fun e => (claimedAt e.2).all fun key =>
        key.1 ≠ copy.pk || key.2 ≤ now
  | _ => true

/-- A job without a cursor that has been claimed runs once, and a tick has passed its time. -/
def Retired (cadences : ℕ → Option Cadence) (history : List (ℕ × Event Answer)) (s : Store ω) : Prop :=
  ∀ pk, s.cursor pk = none → instants pk history ≠ [] → ∃ c runAt, cadences pk = some c ∧
    c.scheduleType = .once ∧ c.runAt = some runAt ∧
    ∃ e ∈ history, ∃ now, claimedAt e.2 = some (pk, now) ∧ runAt ≤ now

/-- What ticks and edits keep of the history and the store. -/
structure Edited (cadences : ℕ → Option Cadence) (history : List (ℕ × Event Answer)) (s : Store ω) :
    Prop where
  ordered : Ordered history s
  retired : Retired cadences history s

section step

variable {history : List (ℕ × Event Answer)} {op : Statement}

/-- A claim in turn moves the cursor on. -/
theorem claim_inTurn {job : ScheduledJob} {now : Time} {next : Option Time}
    (hlib : engine.lib.Forward) (hop : Editing engine cadences (.claim job now next))
    (hturn : inTurn engine.lib history s (.claim job now next) = true)
    (hseen : s.cursor job.pk = job.nextRunAt) :
    ∃ due, job.nextRunAt = some due ∧ ∀ t, next = some t → due < t := by
  obtain ⟨-, hrun, due, hdue, hle⟩ := hop
  have hreaches : reaches engine.lib job.cadence now = true := by
    simpa [inTurn, hseen] using hturn
  refine ⟨due, hdue, ?_⟩
  rintro t rfl
  exact hle.trans_lt (nextRun_gt hlib hreaches hrun)

/-- A save in turn leaves the cursor of a job that has been claimed. -/
theorem save_inTurn {loaded copy : ScheduledJob} {seeded : Option Time}
    (h : Edited cadences history s) (hop : Editing engine cadences (.save loaded copy seeded))
    (hturn : inTurn engine.lib history s (.save loaded copy seeded) = true)
    (hclaimed : instants copy.pk history ≠ []) : copy.nextRunAt = s.cursor copy.pk := by
  obtain ⟨hcopy, hseeds⟩ := hop
  simp only [inTurn, Bool.and_eq_true, decide_eq_true_eq] at hturn
  obtain ⟨hseen, hlater⟩ := hturn
  cases seeded with
  | none => exact hseeds.trans hseen.symm
  | some now =>
    obtain ⟨hnone, hnext⟩ := hseeds
    rw [hnone] at hseen
    rw [hseen]
    obtain ⟨c, runAt, hc, htype, hrunAt, e, he, now', hclaim, hle⟩ := h.retired copy.pk hseen hclaimed
    obtain rfl : copy.cadence = c := Option.some.inj (hcopy.symm.trans hc)
    rcases hnext with hnext | hnext
    · exact hnext
    · have hnow : now' ≤ now := by
        have := List.all_eq_true.mp hlater e he
        simpa [hclaim] using this
      rw [nextRun_once htype hrunAt (hle.trans hnow)] at hnext
      exact (Except.ok.inj hnext).symm

theorem Edited.step (h : Edited cadences history s) (hlib : engine.lib.Forward) (i : ℕ)
    (hop : Editing engine cadences op) (hturn : inTurn engine.lib history s op = true) :
    Edited cadences (history ++ [(i, ⟨op, (exec engine op s).1⟩)]) (exec engine op s).2 := by
  refine ⟨?_, ?_⟩
  · apply h.ordered.step engine i op
    · rintro job now next rfl hseen
      exact claim_inTurn hlib hop hturn hseen
    · rintro loaded copy seeded rfl due hdue next hnext
      have hsame := save_inTurn h hop hturn (List.ne_nil_of_mem hdue)
      cases hrow : s.job copy.pk with
      | none => simp [hrow] at hnext
      | some row =>
        simp only [hrow, Option.bind_some] at hnext
        exact h.ordered.passed copy.pk due hdue next (hsame.symm.trans hnext)
  · intro pk hcursor hclaimed
    have hkeep : s.cursor pk = none → instants pk history ≠ [] →
        ∃ c runAt, cadences pk = some c ∧ c.scheduleType = .once ∧ c.runAt = some runAt ∧
          ∃ e ∈ history ++ [(i, ⟨op, (exec engine op s).1⟩)], ∃ now,
            claimedAt e.2 = some (pk, now) ∧ runAt ≤ now := by
      intro hnone hclaimed
      obtain ⟨c, runAt, hc, htype, hrunAt, e, he, hclaim⟩ := h.retired pk hnone hclaimed
      exact ⟨c, runAt, hc, htype, hrunAt, e, List.mem_append_left _ he, hclaim⟩
    rcases exec_cursor engine op s with
      ⟨job, now, next, rfl, hseen, hevent, hnew⟩ | ⟨loaded, copy, seeded, rfl, hnone, hnew⟩ |
      ⟨hnone, hnew⟩
    · rw [hnew] at hcursor
      by_cases hpk : pk = job.pk
      · subst hpk
        rw [if_pos rfl] at hcursor
        subst hcursor
        obtain ⟨hjob, hrun, -⟩ := hop
        obtain ⟨htype, runAt, hrunAt, hle⟩ := nextRun_none hrun
        refine ⟨job.cadence, runAt, hjob, htype, hrunAt, _,
          List.mem_append_right _ List.mem_cons_self, now, ?_, hle⟩
        rw [hevent]
        rfl
      · rw [if_neg hpk] at hcursor
        apply hkeep hcursor
        intro hnil
        apply hclaimed
        rw [instants_append, hevent, hnil]
        cases hdue : job.nextRunAt <;> simp [claimed, hdue, Ne.symm hpk]
    · rw [instants_append_of_none hnone] at hclaimed
      apply hkeep _ hclaimed
      rw [hnew] at hcursor
      by_cases hpk : pk = copy.pk
      · subst hpk
        rw [if_pos rfl, save_inTurn h hop hturn hclaimed] at hcursor
        cases hrow : s.job copy.pk with
        | none => simp [Store.cursor, hrow]
        | some row => simpa [hrow] using hcursor
      · rwa [if_neg hpk] at hcursor
    · rw [instants_append_of_none hnone] at hclaimed
      rw [hnew] at hcursor
      exact hkeep hcursor hclaimed

end step

/-- The cadences of the jobs of a store. -/
def Store.cadenceOf (s : Store ω) (pk : ℕ) : Option Cadence := (s.job pk).map ScheduledJob.cadence

theorem keepsCadences_start (hpk : Table.Unique ScheduledJob.pk s.jobs) :
    KeepsCadences s.cadenceOf s := by
  intro job hjob
  have hget : s.job job.pk = some job := Table.get_of_mem hpk hjob
  rw [HasCadence, Store.cadenceOf, hget]
  rfl

/-- A statement in turn moves no cursor back. -/
theorem cursor_mono {history : List (ℕ × Event Answer)} {op : Statement}
    (hlib : engine.lib.Forward) (hop : Editing engine cadences op)
    (hturn : inTurn engine.lib history s op = true) {c c' : Time} (hc : s.cursor pk = some c)
    (hc' : (exec engine op s).2.cursor pk = some c') : c ≤ c' := by
  rcases exec_cursor engine op s with
    ⟨job, now, next, rfl, hseen, -, hnew⟩ | ⟨loaded, copy, seeded, rfl, -, hnew⟩ | ⟨-, hnew⟩
  · rw [hnew] at hc'
    by_cases hpk : pk = job.pk
    · subst hpk
      rw [if_pos rfl] at hc'
      obtain ⟨due, hdue, hnext⟩ := claim_inTurn hlib hop hturn hseen
      obtain rfl : c = due := Option.some.inj (hc.symm.trans (hseen.trans hdue))
      exact (hnext c' hc').le
    · rw [if_neg hpk, hc] at hc'
      exact (Option.some.inj hc').le
  · rw [hnew] at hc'
    by_cases hpk : pk = copy.pk
    · subst hpk
      rw [if_pos rfl] at hc'
      obtain ⟨-, hseeds⟩ := hop
      simp only [inTurn, Bool.and_eq_true, decide_eq_true_eq] at hturn
      rw [hc] at hturn
      cases hrow : s.job copy.pk with
      | none => simp [hrow] at hc'
      | some row =>
        simp only [hrow, Option.bind_some] at hc'
        cases seeded with
        | none =>
          have hsame : copy.nextRunAt = some c := hseeds.trans hturn.1.symm
          exact (Option.some.inj (hsame.symm.trans hc')).le
        | some now => exact absurd (hturn.1.trans hseeds.1) nofun
    · rw [if_neg hpk, hc] at hc'
      exact (Option.some.inj hc').le
  · rw [hnew, hc] at hc'
    exact (Option.some.inj hc').le

/-- No tick enqueues what has been enqueued, and no move takes a cursor back. -/
structure NeverRefires (engine : Engine ω) (s : Store ω) (moves : List (Move Turn)) : Prop where
  once : ∀ key, ((runEdits engine s moves).history.countP fun e => enqueued e.2 = some key) ≤ 1
  forward : ∀ before move after, moves = before ++ move :: after → ∀ pk c c',
    (runEdits engine s before).store.cursor pk = some c →
    (runEdits engine s (before ++ [move])).store.cursor pk = some c' → c ≤ c'

/-- A job of every five minutes, which is due. -/
def beatStore : Store Unit where
  clock := 1
  world := ()
  jobs := [{
    pk := 1, name := "beat".toList, taskPath := "apps.tasks.beat".toList, nextRunAt := some 0
    allowOverlap := true
    cadence := { scheduleType := .interval, intervalSpec := "5m".toList, anchorAt := some 0 } }]

theorem beatStore_normalized : Normalized gregorian beatStore.cadenceOf := by
  intro pk c hc
  obtain ⟨row, hrow, rfl⟩ := Option.map_eq_some_iff.mp hc
  obtain rfl := List.mem_singleton.mp (Table.get_mem hrow)
  rfl

/-- Three more attempts. -/
def moreRetries : Turn :=
  ⟨.edit 1 { enabled := true, allowOverlap := true, catchUp := .runOnce, maxRetries := 3 }, rfl⟩

end CwStation.Scheduler
