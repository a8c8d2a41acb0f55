import CwStation.Verification.Tasks.Changes

/-! # The jobs make no other changes

Each job is followed statement by statement. Between two statements other threads change the
tables, so that what a thread has read is used only as far as no change can undo it. -/

namespace CwStation.Tasks

open Table Threads

variable {cfg : Settings} {allowed : Pass → Prop}

/-- A change of tables that are linked. -/
def Step (cfg : Settings) (allowed : Pass → Prop) (w w' : World) : Prop :=
  Linked w ∧ Change cfg allowed w w'

/-! ## What no change can undo -/

/-- The row has been claimed by a worker. -/
def Ran (id : ResultId) (spec : TaskSpec) (w : World) : Prop :=
  ∃ t, w.task id = some t ∧ t.ran = true ∧ t.spec = spec

/-- The row is terminal with a result other than `WorkerLost`. -/
def Done (id : ResultId) (w : World) : Prop := ∃ t, w.task id = some t ∧ t.done = true

/-- The retry has been cancelled. -/
def Cancelled (id : ResultId) (w : World) : Prop := ∃ t, w.task id = some t ∧ t.cancelled = true

/-- The attempt row of `id` says that it replaces `parentId`, which was lost. -/
def ChildOf (parentId id : ResultId) (w : World) : Prop :=
  ∃ a, w.attemptOf id = some a ∧ a.parentId = some parentId ∧ a.cause = .lost

/-- The attempt row of `id` says that the row it replaced has completed. -/
def Marked (parentId id : ResultId) (w : World) : Prop :=
  ∃ a, w.attemptOf id = some a ∧ a.parentId = some parentId ∧ a.parentCompletedAt.isSome

/-- The rows were claimed as they still are. -/
def Claimed (rows : List TaskRow) (w : World) : Prop :=
  ∀ row ∈ rows, ∃ t, w.task row.id = some t ∧ row.ran = true ∧ t.claim = row.claim

section stable

variable {id parentId : ResultId}

theorem stable_linked : Stable (Step cfg allowed) Linked := fun _ _ hl h => hl.step h.2

theorem stable_ran (spec : TaskSpec) : Stable (Step cfg allowed) (Ran id spec) := by
  rintro w w' ⟨t, ht, hran, hspec⟩ ⟨hl, h⟩
  obtain ⟨t', ht', hadv, -⟩ := h.row hl.toBase ht
  exact ⟨t', ht', hadv.ran hran, by rw [hadv.spec, hspec]⟩

theorem left_of_ran {t : TaskRow} {w : World} (hl : Linked w) (ht : w.task id = some t)
    (hran : t.ran = true) : t.status ≠ .ready := by
  intro hready
  have hok := hl.rows id t ht
  rw [TaskRow.Ok, hready] at hok
  simp only [hran, Bool.true_eq_false] at hok

theorem stable_info (spec : TaskSpec) (info : AttemptInfo) : Stable (Step cfg allowed)
    fun w => Ran id spec w ∧ w.attemptInfo id = info := by
  rintro w w' ⟨hran, hinfo⟩ hstep
  refine ⟨stable_ran spec w w' hran hstep, ?_⟩
  obtain ⟨t, ht, hclaimed, -⟩ := hran
  rw [hstep.2.info ht (left_of_ran hstep.1 ht hclaimed), hinfo]

theorem stable_done : Stable (Step cfg allowed) (Done id) := by
  rintro w w' ⟨t, ht, hdone⟩ ⟨hl, h⟩
  obtain ⟨t', ht', hadv, -⟩ := h.row hl.toBase ht
  exact ⟨t', ht', hadv.done hdone⟩

theorem stable_cancelled : Stable (Step cfg allowed) (Cancelled id) := by
  rintro w w' ⟨t, ht, hcancelled⟩ ⟨hl, h⟩
  obtain ⟨t', ht', hadv, -⟩ := h.row hl.toBase ht
  exact ⟨t', ht', hadv.cancelled hcancelled ▸ hcancelled⟩

theorem stable_childOf : Stable (Step cfg allowed) (ChildOf parentId id) := by
  rintro w w' ⟨a, ha, hparent, hcause⟩ ⟨-, h⟩
  obtain ⟨a', ha', hstays⟩ := h.attempt ha
  exact ⟨a', ha', by rw [hstays.parentId, hparent], by rw [hstays.cause, hcause]⟩

theorem stable_marked : Stable (Step cfg allowed) (Marked parentId id) := by
  rintro w w' ⟨a, ha, hparent, hmarked⟩ ⟨-, h⟩
  obtain ⟨a', ha', hstays⟩ := h.attempt ha
  exact ⟨a', ha', by rw [hstays.parentId, hparent], by rw [hstays.completed hmarked, hmarked]⟩

theorem stable_claimed (rows : List TaskRow) : Stable (Step cfg allowed) (Claimed rows) := by
  intro w w' hrows hstep row hrow
  obtain ⟨t, ht, hran, hsame⟩ := hrows row hrow
  obtain ⟨t', ht', hadv, -⟩ := hstep.2.row hstep.1.toBase ht
  have hids : t.workerIds = row.workerIds := congrArg Prod.fst hsame
  have hclaimed : t.ran = true := by
    rw [TaskRow.ran, hids]
    exact hran
  exact ⟨t', ht', hran, by rw [hadv.claimed hclaimed, hsame]⟩

end stable

theorem any_status_iff {o : Option TaskRow} {status : Status} :
    (o.any fun t => t.status = status) = true ↔ ∃ t, o = some t ∧ t.status = status := by
  cases o <;> simp

/-! ## Rules -/

section rules

variable {α : Type} {P : World → Prop} {Q : α → World → Prop}

theorem reads {f : World → α} (hP : ∀ w, P w → Linked w) (hQ : ∀ a, Stable (Step cfg allowed) (Q a))
    (h : ∀ w, P w → Q (f w) w) : Fits (Step cfg allowed) (Prog.read f) P Q :=
  fits_read hQ fun w hw => ⟨⟨hP w hw, .idle w⟩, h w hw⟩

/-- A reading that nothing depends on. -/
theorem reads_any {f : World → α} (hP : ∀ w, P w → Linked w) (hstable : Stable (Step cfg allowed) P) :
    Fits (Step cfg allowed) (Prog.read f) P fun _ => P :=
  reads hP (fun _ => hstable) fun _ hw => hw

theorem pure_fits {a : α} (h : ∀ w, P w → Q a w) :
    Fits (Step cfg allowed) (pure a : Thread α) P Q := fits_ret h

end rules

/-! ## Retrying -/

theorem judge_budget {row : TaskRow} {cause : Cause} {info : AttemptInfo} {decision : Decision}
    (h : judge cfg row cause info = some decision) : decision.info = info ∧
      info.attempt < budgetOf cfg row.spec.taskPath info.maxAttempts := by
  simp only [judge] at h
  split_ifs at h with hbudget
  all_goals
    cases h
    exact ⟨rfl, not_le.mp hbudget⟩

theorem insertRetry_fits (row : TaskRow) (decision : Decision) (new : ResultId) (skew : Time)
    (hbudget : decision.info.attempt < budgetOf cfg row.spec.taskPath decision.info.maxAttempts) :
    Fits (Step cfg allowed) (Prog.stmt (World.atomic (retryRow row decision new skew)))
      (fun w => Linked w ∧ Ran row.id row.spec w ∧ w.attemptInfo row.id = decision.info)
      fun _ => Linked := by
  apply fits_stmt fun _ => stable_linked
  rintro w ⟨hl, ⟨p, hp, hran, hspec⟩, hinfo⟩
  unfold World.atomic
  cases hinsert : retryRow row decision new skew w with
  | none => exact ⟨⟨hl, .idle w⟩, hl⟩
  | some w' =>
    have hchange : Change cfg allowed w w' :=
      .retry row decision new skew hp hran hspec.symm hinfo.symm hbudget hinsert
    exact ⟨⟨hl, hchange⟩, hl.step hchange⟩

/-- A row that a retry starts from has run: it is neither waiting nor cancelled. -/
theorem ran_of_failed {w : World} {id : ResultId} {row : TaskRow} (hl : Linked w)
    (hrow : w.task id = some row) (hfailed : row.status = .failed)
    (hpath : row.exceptionClassPath ∉ bookkeepingPaths) : Ran row.id row.spec w := by
  have hid := id_of_task hrow
  refine ⟨row, by rw [hid, hrow], ?_, rfl⟩
  apply (hl.rows id row hrow).ran
  · rw [hfailed]
    exact Status.noConfusion
  · rw [bookkeepingPaths, List.mem_singleton] at hpath
    simp [TaskRow.cancelled, hpath]

theorem decideRetry_fits (row : TaskRow) (cause : Cause) :
    Fits (Step cfg allowed) (decideRetry cfg row cause)
      (fun w => Linked w ∧ (row.status = .failed → row.exceptionClassPath ∉ bookkeepingPaths →
        Ran row.id row.spec w))
      fun decision w => Linked w ∧ ∀ d, decision = some d →
        d.info.attempt < budgetOf cfg row.spec.taskPath d.info.maxAttempts ∧
          Ran row.id row.spec w ∧ w.attemptInfo row.id = d.info := by
  unfold decideRetry
  split
  · exact pure_fits fun w hw => ⟨hw.1, by simp⟩
  · rename_i hfailed
    split
    · exact pure_fits fun w hw => ⟨hw.1, by simp⟩
    · rename_i hpath
      have hread : Fits (Step cfg allowed) (Prog.read fun w => w.attemptInfo row.id)
          (fun w => Linked w ∧ (row.status = .failed → row.exceptionClassPath ∉ bookkeepingPaths →
            Ran row.id row.spec w))
          fun info w => Linked w ∧ Ran row.id row.spec w ∧ w.attemptInfo row.id = info :=
        reads (fun _ hw => hw.1) (fun info => stable_linked.and (stable_info row.spec info))
          fun w hw => ⟨hw.1, hw.2 (not_not.mp hfailed) hpath, rfl⟩
      refine hread.bind fun info => ?_
      apply pure_fits
      rintro w ⟨hl, hran, hinfo⟩
      refine ⟨hl, ?_⟩
      intro d hd
      obtain ⟨hsame, hbudget⟩ := judge_budget hd
      rw [hsame]
      exact ⟨hbudget, hran, hinfo⟩

theorem maybeRetry_fits (fresh : ResultId → ResultId) (skew : Time) (id : ResultId) (cause : Cause) :
    Fits (Step cfg allowed) (maybeRetry cfg fresh skew id cause) Linked fun _ => Linked := by
  have hread : Fits (Step cfg allowed) (Prog.read fun w => w.task id) Linked
      fun row w => Linked w ∧ ∀ r, row = some r → r.status = .failed →
        r.exceptionClassPath ∉ bookkeepingPaths → Ran r.id r.spec w := by
    apply reads fun _ hw => hw
    · intro row
      apply stable_linked.and
      intro w w' h hstep r hr hfailed hpath
      exact stable_ran r.spec w w' (h r hr hfailed hpath) hstep
    · exact fun w hl => ⟨hl, fun r hr hfailed hpath => ran_of_failed hl hr hfailed hpath⟩
  refine hread.bind fun row => ?_
  cases row with
  | none => exact pure_fits fun _ hw => hw.1
  | some row =>
    refine ((decideRetry_fits row cause).before fun w hw => ⟨hw.1, hw.2 row rfl⟩).bind
      fun decision => ?_
    cases decision with
    | none => exact pure_fits fun _ hw => hw.1
    | some decision =>
      simp only
      split
      · -- the budget is settled by what was read, whatever the tables are now
        by_cases hbudget : decision.info.attempt <
            budgetOf cfg row.spec.taskPath decision.info.maxAttempts
        · refine ((insertRetry_fits row decision _ skew hbudget).before ?_).bind
            fun _ => pure_fits fun _ hw => hw
          exact fun w hw => ⟨hw.1, (hw.2 decision rfl).2⟩
        · exact fun w hw => absurd (hw.2 decision rfl).1 hbudget
      · exact pure_fits fun _ hw => hw.1

/-! ## Late completions -/

theorem markCompleted_fits (parentId id : ResultId) (status : Status) (completedAt : Time) :
    Fits (Step cfg allowed) (Prog.stmt (markCompleted parentId status completedAt))
      (fun w => Linked w ∧ Done parentId w ∧ ChildOf parentId id w)
      fun _ w => Linked w ∧ Marked parentId id w := by
  apply fits_stmt fun _ => stable_linked.and stable_marked
  rintro w ⟨hl, ⟨p, hp, hdone⟩, a, ha, hparent, hcause⟩
  have hchange : Change cfg allowed w (markCompleted parentId status completedAt w).2 := by
    have hid := id_of_task hp
    subst hid
    exact .mark status completedAt hp hdone
  refine ⟨⟨hl, hchange⟩, hl.step hchange, ?_⟩
  have hget : (markCompleted parentId status completedAt w).2.attemptOf id = _ :=
    attemptOf_map rfl fun a => by split <;> rfl
  rw [ha, Option.map_some] at hget
  refine ⟨_, hget, ?_⟩
  split
  · exact ⟨hparent, rfl⟩
  · rename_i hnot
    refine ⟨hparent, ?_⟩
    simpa [reapedChild, hparent, hcause, ← Option.isSome_iff_ne_none] using hnot

theorem supersede_fits (parentId id : ResultId) (now : Time) :
    Fits (Step cfg allowed) (Prog.stmt (World.updateTask id .ready (supersede now)))
      (fun w => Linked w ∧ Marked parentId id w)
      fun updated w => Linked w ∧ (updated = true → Cancelled id w) := by
  have hstable : ∀ updated, Stable (Step cfg allowed)
      fun w => Linked w ∧ (updated = true → Cancelled id w) :=
    fun updated => stable_linked.and fun w w' h hstep hyes => stable_cancelled w w' (h hyes) hstep
  apply fits_stmt hstable
  rintro w ⟨hl, a, ha, hparent, hmarked⟩
  unfold World.updateTask
  cases hready : (w.task id).any fun t => t.status = .ready with
  | false => exact ⟨⟨hl, .idle w⟩, hl, by simp⟩
  | true =>
    obtain ⟨t, ht, hstatus⟩ := any_status_iff.mp hready
    have hid := id_of_task ht
    subst hid
    have hchange : Change cfg allowed w (w.alterTask t.id (supersede now)) :=
      .cancel now ht hstatus ha hmarked
    refine ⟨⟨hl, hchange⟩, hl.step hchange, fun _ => ?_⟩
    refine ⟨supersede now t, ?_, (supersede_advances (hl.rows _ _ ht) now hstatus).2.2⟩
    simp only [ite_true]
    rw [task_alterTask (f := supersede now) fun _ => rfl, if_pos rfl, ht, Option.map_some]

theorem flagCancelled_fits (parentId id : ResultId) :
    Fits (Step cfg allowed) (Prog.write (flagCancelled parentId))
      (fun w => Linked w ∧ ChildOf parentId id w ∧ Cancelled id w) fun _ => Linked := by
  apply fits_write stable_linked
  rintro w ⟨hl, ⟨a, ha, hparent, -⟩, hcancelled⟩
  have hchange : Change cfg allowed w (flagCancelled parentId w) := by
    apply Change.flag
    intro b hb hsame
    have hba : b = a := hl.parents b hb a (get_mem ha) (by simp [hsame]) (by rw [hsame, hparent])
    rw [hba, key_of_get ha]
    exact hcancelled
  exact ⟨⟨hl, hchange⟩, hl.step hchange⟩

theorem markSuperseded_fits (parentId : ResultId) (status : Status) (completedAt now : Time) :
    Fits (Step cfg allowed) (markSuperseded parentId status completedAt now)
      (fun w => Linked w ∧ Done parentId w) fun _ => Linked := by
  have hread : Fits (Step cfg allowed)
      (Prog.read fun w => w.attempts.find? (reapedChild parentId))
      (fun w => Linked w ∧ Done parentId w)
      fun child w => Linked w ∧ Done parentId w ∧ ∀ a, child = some a →
        ChildOf parentId a.resultId w := by
    apply reads fun _ hw => hw.1
    · intro child
      apply stable_linked.and
      apply stable_done.and
      intro w w' h hstep a ha
      exact stable_childOf w w' (h a ha) hstep
    · rintro w ⟨hl, hdone⟩
      refine ⟨hl, hdone, ?_⟩
      intro a ha
      have hchild := List.find?_some ha
      simp only [reapedChild, Bool.and_eq_true, decide_eq_true_eq] at hchild
      exact ⟨a, hl.attempt_of_mem (List.mem_of_find?_eq_some ha), hchild.1.1, hchild.2⟩
  refine hread.bind fun child => ?_
  cases child with
  | none => exact pure_fits fun _ hw => hw.1
  | some a =>
    -- from here on `a` stays the child that was lost and replaced
    have hchild : ∀ {α : Type} {p : Thread α} {P : World → Prop} {Q : α → World → Prop},
        Fits (Step cfg allowed) p P Q → Fits (Step cfg allowed) p
          (fun w => P w ∧ ChildOf parentId a.resultId w)
          fun x w => Q x w ∧ ChildOf parentId a.resultId w :=
      fun h => h.frame stable_childOf
    refine ((hchild (markCompleted_fits parentId a.resultId status completedAt)).before
      fun w hw => ⟨⟨hw.1, hw.2.1, hw.2.2 a rfl⟩, hw.2.2 a rfl⟩).bind fun marked => ?_
    cases marked with
    | false => exact pure_fits fun _ hw => hw.1.1
    | true =>
      refine (hchild (supersede_fits parentId a.resultId now)).bind fun cancelled => ?_
      cases cancelled with
      | false => exact pure_fits fun _ hw => hw.1.1
      | true =>
        refine ((flagCancelled_fits parentId a.resultId).before
          fun w hw => ⟨hw.1.1, hw.2, hw.1.2 rfl⟩).bind fun _ => ?_
        exact pure_fits fun _ hw => hw

theorem recordLateCompletion_fits (skew : Time) (id : ResultId) :
    Fits (Step cfg allowed) (recordLateCompletion skew id)
      (fun w => Linked w ∧ Done id w) fun _ => Linked := by
  have hstable : Stable (Step cfg allowed) fun w => Linked w ∧ Done id w :=
    stable_linked.and stable_done
  refine (reads_any (fun _ hw => hw.1) hstable).bind fun now => ?_
  refine (reads_any (fun _ hw => hw.1) hstable).bind fun row => ?_
  cases row with
  | none => exact pure_fits fun _ hw => hw.1
  | some row =>
    simp only
    split
    · exact pure_fits fun _ hw => hw.1
    · exact markSuperseded_fits id _ _ now

theorem detectLateCompletions_fits (skew : Time) :
    Fits (Step cfg allowed) (detectLateCompletions skew) Linked fun _ => Linked := by
  refine (reads_any (fun _ hw => hw) stable_linked).bind fun now => ?_
  refine (reads_any (fun _ hw => hw) stable_linked).bind fun candidates => ?_
  split
  · exact pure_fits fun _ hw => hw
  · -- a terminal row without the verdict of the reaper keeps its result
    have hread : Fits (Step cfg allowed) (Prog.read fun w => w.tasks.filter fun t =>
          t.id ∈ candidates && (t.status = .successful || t.status = .failed)) Linked
        fun rows w => Linked w ∧ ∀ t ∈ rows, t.lost = false → Done t.id w := by
      apply reads fun _ hw => hw
      · intro rows
        apply stable_linked.and
        intro w w' h hstep t ht hlost
        exact stable_done w w' (h t ht hlost) hstep
      · intro w hl
        refine ⟨hl, ?_⟩
        intro t ht hlost
        rw [List.mem_filter] at ht
        refine ⟨t, get_of_mem hl.ids ht.1, ?_⟩
        simp only [Bool.and_eq_true, Bool.or_eq_true, decide_eq_true_eq] at ht
        rcases ht.2.2 with hstatus | hstatus
        · simp [TaskRow.done, hstatus]
        · simpa [TaskRow.done, TaskRow.lost, hstatus] using hlost
    refine hread.bind fun rows => ?_
    have hrows : Stable (Step cfg allowed)
        fun w => Linked w ∧ ∀ t ∈ rows, t.lost = false → Done t.id w :=
      stable_linked.and fun w w' h hstep t ht hlost => stable_done w w' (h t ht hlost) hstep
    refine Fits.after (fits_collect fun t ht => ?_) fun _ _ hw => hw.1
    split
    · exact pure_fits fun _ hw => hw
    · rename_i hlost
      rw [Bool.not_eq_true] at hlost
      have hmark : Fits (Step cfg allowed)
          (markSuperseded t.id t.status (t.finishedAt.getD now) now)
          (fun w => Linked w ∧ Done t.id w) fun _ => Linked := markSuperseded_fits _ _ _ _
      refine ((hmark.frame hrows).before ?_).after fun _ _ hw => hw.2
      exact fun w hw => ⟨⟨hw.1, hw.2 t ht hlost⟩, hw⟩

theorem repairMissedRetries_fits (fresh : ResultId → ResultId) (faults : ResultId → Option ℕ)
    (skew : Time) :
    Fits (Step cfg allowed) (repairMissedRetries cfg fresh faults skew) Linked fun _ => Linked := by
  refine (reads_any (fun _ hw => hw) stable_linked).bind fun now => ?_
  refine (reads_any (fun _ hw => hw) stable_linked).bind fun paths => ?_
  refine (reads_any (fun _ hw => hw) stable_linked).bind fun candidates => ?_
  apply fits_collect
  intro id _
  refine ((maybeRetry_fits fresh skew id .failed).upTo stable_linked (fun _ hw => hw) _).bind
    fun retried => ?_
  exact pure_fits fun _ hw => hw.1

theorem retryFailedTask_fits (fresh : ResultId → ResultId) (lateFault retryFault : Option ℕ)
    (skew : Time) (id : ResultId) (status : Status) :
    Fits (Step cfg allowed) (retryFailedTask cfg fresh lateFault retryFault skew id status)
      (fun w => Linked w ∧ Done id w) fun _ => Linked := by
  refine ((recordLateCompletion_fits skew id).upTo stable_linked (fun _ hw => hw.1) _).bind
    fun late => ?_
  split
  · refine (((maybeRetry_fits fresh skew id .failed).upTo stable_linked (fun _ hw => hw) _).before
      fun _ hw => hw.1).bind fun _ => ?_
    exact pure_fits fun _ hw => hw.1
  · exact pure_fits fun _ hw => hw.1

/-! ## Workers -/

theorem claim_fits (worker : Str) (now : Time) (id : ResultId) :
    Fits (Step cfg allowed) (Prog.stmt (World.updateTask id .ready (claimRow worker now))) Linked
      fun claimed w => Linked w ∧ (claimed = true → ∃ spec, Ran id spec w) := by
  apply fits_stmt
  · intro claimed
    apply stable_linked.and
    intro w w' h hstep hyes
    obtain ⟨spec, hran⟩ := h hyes
    exact ⟨spec, stable_ran spec w w' hran hstep⟩
  · intro w hl
    unfold World.updateTask
    cases hready : (w.task id).any fun t => t.status = .ready with
    | false => exact ⟨⟨hl, .idle w⟩, hl, by simp⟩
    | true =>
      obtain ⟨t, ht, hstatus⟩ := any_status_iff.mp hready
      have hid := id_of_task ht
      subst hid
      have hchange : Change cfg allowed w (w.alterTask t.id (claimRow worker now)) :=
        .claim worker now ht hstatus
      refine ⟨⟨hl, hchange⟩, hl.step hchange, fun _ => ?_⟩
      refine ⟨t.spec, claimRow worker now t, ?_, by simp [TaskRow.ran, claimRow], rfl⟩
      simp only [ite_true]
      rw [task_alterTask (f := claimRow worker now) fun _ => rfl, if_pos rfl, ht,
        Option.map_some]

theorem finish_fits (outcome : Outcome) (now : Time) (id : ResultId) :
    Fits (Step cfg allowed) (Prog.write fun w => w.alterTask id (finishRow outcome now))
      (fun w => Linked w ∧ ∃ spec, Ran id spec w) fun _ w => Linked w ∧ Done id w := by
  apply fits_write (stable_linked.and stable_done)
  rintro w ⟨hl, spec, t, ht, hran, -⟩
  have hid := id_of_task ht
  subst hid
  have hchange : Change cfg allowed w (w.alterTask t.id (finishRow outcome now)) :=
    .finish outcome now ht hran
  refine ⟨⟨hl, hchange⟩, hl.step hchange, finishRow outcome now t, ?_, finishRow_done outcome now t⟩
  rw [task_alterTask (f := finishRow outcome now) fun _ => rfl, if_pos rfl, ht, Option.map_some]

theorem work_fits (job : Work) :
    Fits (Step cfg allowed) (work cfg job) Linked fun _ => Linked := by
  refine (reads_any (fun _ hw => hw) stable_linked).bind fun started => ?_
  refine (claim_fits job.worker started job.resultId).bind fun claimed => ?_
  cases claimed with
  | false => exact pure_fits fun _ hw => hw.1
  | true =>
    have hstable : Stable (Step cfg allowed)
        fun w => Linked w ∧ ∃ spec, Ran job.resultId spec w := by
      apply stable_linked.and
      rintro w w' ⟨spec, hran⟩ hstep
      exact ⟨spec, stable_ran spec w w' hran hstep⟩
    have hread : Fits (Step cfg allowed) (timezoneNow job.skew)
        (fun w => Linked w ∧ (true = true → ∃ spec, Ran job.resultId spec w))
        fun _ w => Linked w ∧ ∃ spec, Ran job.resultId spec w :=
      reads (fun _ hw => hw.1) (fun _ => hstable) fun w hw => ⟨hw.1, hw.2 rfl⟩
    refine hread.bind fun finished => ?_
    refine (finish_fits job.outcome finished job.resultId).bind fun _ => ?_
    exact retryFailedTask_fits _ _ _ _ _ _

/-! ## The reaper -/

/-- Each of the tasks was found in its reading, and its row was claimed as it still is. -/
def Judged (cfg : Settings) (lost : List LostTask) (w : World) : Prop :=
  ∀ task ∈ lost, ∃ reading ∈ w.readings, ∃ row ∈ reading.running,
    reading.verdict cfg row = some task ∧ Claimed [row] w

theorem verdict_eq {reading : Reading} {row : TaskRow} {task : LostTask}
    (h : reading.verdict cfg row = some task) :
    task.resultId = row.id ∧ task.serial = reading.serial := by
  rw [Reading.verdict] at h
  split at h
  · cases h
  · obtain ⟨reason, -, rfl⟩ := Option.map_eq_some_iff.mp h
    exact ⟨rfl, rfl⟩

theorem Change.readings {w w' : World} (h : Change cfg allowed w w') {reading : Reading}
    (hmem : reading ∈ w.readings) : reading ∈ w'.readings := by
  cases h with
  | read pass now running => exact List.mem_append_left _ hmem
  | retry row decision new skew hp hran hspec hinfo hbudget hinsert =>
    obtain ⟨-, -, -, rfl⟩ := retryRow_eq hinsert
    exact hmem
  | pin id n now =>
    unfold World.pin
    split <;> exact hmem
  | register =>
    unfold World.registerWorker
    split <;> exact hmem
  | tick =>
    unfold World.tick
    split <;> exact hmem
  | idle | enqueue | claim | finish | reap | cancel | mark | flag | beat | stop | lapse | prune =>
    exact hmem

theorem stable_judged (lost : List LostTask) : Stable (Step cfg allowed) (Judged cfg lost) := by
  intro w w' h hstep task htask
  obtain ⟨reading, hreading, row, hrow, hverdict, hclaimed⟩ := h task htask
  exact ⟨reading, hstep.2.readings hreading, row, hrow, hverdict,
    stable_claimed [row] w w' hclaimed hstep⟩

theorem Change.clock {w w' : World} (h : Change cfg allowed w w') : w.clock ≤ w'.clock := by
  cases h with
  | tick d =>
    unfold World.tick
    split
    · simp
    · exact le_refl _
  | retry row decision new skew hp hran hspec hinfo hbudget hinsert =>
    obtain ⟨-, -, -, rfl⟩ := retryRow_eq hinsert
    exact le_refl _
  | pin id n now =>
    unfold World.pin
    split <;> exact le_refl _
  | register =>
    unfold World.registerWorker
    split <;> exact le_refl _
  | idle | enqueue | claim | finish | reap | cancel | mark | flag | beat | stop | lapse | read
  | prune => exact le_refl _

/-- The time of a pass is never ahead of its clock. -/
theorem stable_now (now skew : Time) : Stable (Step cfg allowed) fun w => now ≤ w.clock + skew := by
  intro w w' h hstep
  have hle := hstep.2.clock
  linarith

theorem findLostTasks_fits (pass : Pass) (now : Time) (hpass : allowed pass) :
    Fits (Step cfg allowed) (findLostTasks cfg pass.own now)
      (fun w => Linked w ∧ now ≤ w.clock + pass.skew)
      fun found w => Linked w ∧ Judged cfg found.2 w := by
  have hread : Fits (Step cfg allowed)
      (Prog.read fun w => w.tasks.filter fun t => t.status = .running)
      (fun w => Linked w ∧ now ≤ w.clock + pass.skew)
      fun running w => (Linked w ∧ now ≤ w.clock + pass.skew) ∧ Claimed running w := by
    apply reads fun _ hw => hw.1
    · exact fun running => (stable_linked.and (stable_now now pass.skew)).and (stable_claimed running)
    · intro w hw
      refine ⟨hw, ?_⟩
      intro row hrow
      simp only [List.mem_filter, decide_eq_true_eq] at hrow
      have hget : w.task row.id = some row := get_of_mem hw.1.ids hrow.1
      refine ⟨row, hget, ?_, rfl⟩
      have hok := hw.1.rows _ _ hget
      rwa [TaskRow.Ok, hrow.2] at hok
  refine hread.bind fun running => ?_
  have hbeats : Fits (Step cfg allowed) (Prog.stmt (World.readHeartbeats pass.own now running))
      (fun w => (Linked w ∧ now ≤ w.clock + pass.skew) ∧ Claimed running w)
      fun reading w => Linked w ∧ Claimed running w ∧ reading ∈ w.readings ∧
        reading.running = running := by
    apply fits_stmt
    · intro reading
      apply stable_linked.and
      apply (stable_claimed running).and
      rintro w w' ⟨hmem, hsame⟩ hstep
      exact ⟨hstep.2.readings hmem, hsame⟩
    · rintro w ⟨⟨hl, hnow⟩, hclaimed⟩
      have hchange : Change cfg allowed w (w.readHeartbeats pass.own now running).2 :=
        .read pass now running hpass hnow hclaimed
      refine ⟨⟨hl, hchange⟩, hl.step hchange, hclaimed, ?_, rfl⟩
      exact List.mem_append_right _ (List.mem_singleton.mpr rfl)
  refine hbeats.bind fun reading => ?_
  apply pure_fits
  rintro w ⟨hl, hclaimed, hmem, hrunning⟩
  refine ⟨hl, ?_⟩
  intro task htask
  obtain ⟨row, hrow, hverdict⟩ := List.mem_filterMap.mp htask
  refine ⟨reading, hmem, row, hrunning ▸ hrow, hverdict, ?_⟩
  intro row' hmem'
  rw [List.mem_singleton] at hmem'
  subst hmem'
  exact hclaimed row' hrow

theorem markLost_fits (task : LostTask) (now : Time) (lost : List LostTask) (htask : task ∈ lost) :
    Fits (Step cfg allowed)
      (Prog.stmt (World.updateTask task.resultId .running (markLost task.serial now)))
      (fun w => Linked w ∧ Judged cfg lost w) fun _ w => Linked w ∧ Judged cfg lost w := by
  have hstable : Stable (Step cfg allowed) fun w => Linked w ∧ Judged cfg lost w :=
    stable_linked.and (stable_judged lost)
  apply fits_stmt fun _ => hstable
  rintro w ⟨hl, hjudged⟩
  unfold World.updateTask
  cases hrunning : (w.task task.resultId).any fun t => t.status = .running with
  | false => exact ⟨⟨hl, .idle w⟩, hl, hjudged⟩
  | true =>
    obtain ⟨t, ht, hstatus⟩ := any_status_iff.mp hrunning
    obtain ⟨reading, hreading, row, hrow, hverdict, hclaimed⟩ := hjudged task htask
    obtain ⟨hid, hserial⟩ := verdict_eq hverdict
    obtain ⟨u, hu, hran, hsame⟩ := hclaimed row (List.mem_singleton.mpr rfl)
    rw [← hid, ht, Option.some.injEq] at hu
    subst hu
    have htid := id_of_task ht
    have hchange : Change cfg allowed w (w.alterTask task.resultId (markLost task.serial now)) := by
      rw [← htid] at ht ⊢
      rw [hserial]
      exact .reap now reading row ht hstatus hreading hrow hsame (by rw [hverdict]; rfl)
    have hstep : Step cfg allowed w (w.alterTask task.resultId (markLost task.serial now)) :=
      ⟨hl, hchange⟩
    exact ⟨hstep, hstable _ _ ⟨hl, hjudged⟩ hstep⟩

theorem reapTask_fits (pass : Pass) (now : Time) (lost : List LostTask) (task : LostTask)
    (htask : task ∈ lost) :
    Fits (Step cfg allowed) (reapTask cfg pass now task)
      (fun w => Linked w ∧ Judged cfg lost w)
      fun _ w => Linked w ∧ Judged cfg lost w := by
  refine (markLost_fits task now lost htask).bind fun updated => ?_
  cases updated with
  | false => exact pure_fits fun _ hw => hw
  | true =>
    have hretry : Fits (Step cfg allowed)
        (maybeRetry cfg pass.freshLost pass.skew task.resultId .lost) Linked fun _ => Linked :=
      maybeRetry_fits _ _ _ _
    refine ((hretry.upTo stable_linked (fun _ hw => hw) _).frame (stable_judged lost)).bind
      fun retried => ?_
    exact pure_fits fun _ hw => ⟨hw.1.1, hw.2⟩

theorem reapLostTasks_fits (pass : Pass) (hpass : allowed pass) :
    Fits (Step cfg allowed) (reapLostTasks cfg pass) Linked fun _ => Linked := by
  have hclock : ∀ now, Stable (Step cfg allowed) fun w => now ≤ w.clock + pass.skew :=
    fun now => stable_now now pass.skew
  have hnow : Fits (Step cfg allowed) (timezoneNow pass.skew) Linked
      fun now w => Linked w ∧ now ≤ w.clock + pass.skew :=
    reads (fun _ hw => hw) (fun now => stable_linked.and (hclock now)) fun w hl => ⟨hl, le_refl _⟩
  refine hnow.bind fun now => ?_
  refine (((findLostTasks_fits pass now hpass).frame (hclock now)).before
    fun w hw => ⟨hw, hw.2⟩).bind fun found => ?_
  obtain ⟨running, lost⟩ := found
  simp only
  split
  · exact pure_fits fun _ hw => hw.1.1
  · have hreap : Fits (Step cfg allowed) (Prog.collect (reapTask cfg pass now) lost)
        (fun w => Linked w ∧ Judged cfg lost w)
        fun _ w => Linked w ∧ Judged cfg lost w :=
      fits_collect fun task htask => reapTask_fits pass now lost task htask
    refine (hreap.frame (hclock now)).bind fun reaped => ?_
    refine (((repairMissedRetries_fits _ _ _).frame (hclock now)).before
      fun w hw => ⟨hw.1.1, hw.2⟩).bind fun repaired => ?_
    refine ((detectLateCompletions_fits _).frame (hclock now)).bind fun late => ?_
    have hprune : Fits (Step cfg allowed)
        (Prog.stmt (World.pruneHeartbeats (now - heartbeatRetention)))
        (fun w => Linked w ∧ now ≤ w.clock + pass.skew) fun _ => Linked := by
      apply fits_stmt fun _ => stable_linked
      rintro w ⟨hl, hle⟩
      have hchange : Change cfg allowed w (w.pruneHeartbeats (now - heartbeatRetention)).2 :=
        .prune pass _ hpass (by linarith)
      exact ⟨⟨hl, hchange⟩, hl.step hchange⟩
    refine hprune.bind fun pruned => ?_
    exact pure_fits fun _ hw => hw

/-! ## Jobs -/

/-- A pass of the reaper is among those allowed. -/
def Job.Allowed (allowed : Pass → Prop) : Job → Prop
  | .reap pass => allowed pass
  | _ => True

theorem Job.allowed_true (job : Job) : job.Allowed fun _ => True := by
  cases job <;> trivial

theorem write_fits {f : World → World} (h : ∀ w, Change cfg allowed w (f w)) :
    Fits (Step cfg allowed) (Prog.write f) Linked fun _ _ => True :=
  fun w hl => ⟨⟨hl, h w⟩, Linked, stable_linked, hl.step (h w), fun _ _ => trivial⟩

/-- Every job makes changes and nothing else. -/
theorem job_fits (job : Job) (hjob : job.Allowed allowed) :
    Fits (Step cfg allowed) (job.prog cfg) Linked fun _ _ => True := by
  have hdrop : ∀ {α : Type} {p : Thread α}, Fits (Step cfg allowed) p Linked (fun _ => Linked) →
      Fits (Step cfg allowed) (do let _ ← p) Linked fun _ _ => True :=
    fun h => h.bind fun _ => pure_fits fun _ _ => trivial
  cases job with
  | enqueue id spec skew =>
    apply write_fits
    intro w
    unfold World.insertTask
    split
    · exact .idle w
    · rename_i hnew
      rw [Bool.not_eq_true, Option.isSome_eq_false_iff, Option.isNone_iff_eq_none] at hnew
      exact .enqueue _ hnew rfl rfl rfl
  | pin id maxAttempts skew =>
    apply write_fits
    intro w
    split
    · rename_i hpin
      exact .pin id maxAttempts _ hpin
    · exact .idle w
  | work job => exact (work_fits job).after fun _ _ _ => trivial
  | retry fresh skew id cause => exact hdrop (maybeRetry_fits fresh skew id cause)
  | reap pass => exact hdrop (reapLostTasks_fits pass hjob)
  | repair fresh faults skew => exact hdrop (repairMissedRetries_fits fresh faults skew)
  | detectLate skew => exact hdrop (detectLateCompletions_fits skew)
  | register label token => exact write_fits fun w => .register label token
  | beat worker => exact write_fits fun w => .beat worker
  | stop worker => exact write_fits fun w => .stop worker
  | lapse worker => exact write_fits fun w => .lapse worker
  | tick d => exact write_fits fun w => .tick d

theorem linked_empty : Linked {} := by
  refine ⟨⟨List.nodup_nil, ?_⟩, List.nodup_nil, ?_, ?_, ?_⟩ <;> intros <;> contradiction

theorem runJobs_append (cfg : Settings) (moves more : List (Move Job)) :
    runJobs cfg (moves ++ more) = System.run (Job.prog cfg) (runJobs cfg moves) more :=
  List.foldl_append

section runs

variable {I : World → Prop} (hI : Stable (Step cfg allowed) I) (hlinked : ∀ w, I w → Linked w)
  (hempty : I {}) {moves more : List (Move Job)}

include hI hlinked hempty

/-- Over every run the tables change by changes only. -/
theorem runJobs_sound (hmoves : ∀ job, .start job ∈ moves → job.Allowed allowed) :
    System.Sound (Step cfg allowed) I (runJobs cfg moves) := by
  refine (System.Sound.run hI moves ⟨hempty, by simp⟩ ?_).1
  exact fun job hjob => (job_fits job (hmoves job hjob)).before hlinked

/-- What no change undoes stays to the end of the run. -/
theorem runJobs_later (hmoves : ∀ job, .start job ∈ moves ++ more → job.Allowed allowed)
    {P : World → Prop} (hP : Stable (Step cfg allowed) P) (h : P (runJobs cfg moves).state) :
    P (runJobs cfg (moves ++ more)).state := by
  have hsound : System.Sound (Step cfg allowed) I (runJobs cfg moves) :=
    runJobs_sound hI hlinked hempty fun job hjob => hmoves job (List.mem_append_left _ hjob)
  rw [runJobs_append]
  refine (System.Sound.run hI more hsound ?_).2 P hP h
  intro job hjob
  exact (job_fits job (hmoves job (List.mem_append_right _ hjob))).before hlinked

/-- One more move makes one change at most. -/
theorem runJobs_moved (hmoves : ∀ job, .start job ∈ moves → job.Allowed allowed) (move : Move Job) :
    (runJobs cfg (moves ++ [move])).state = (runJobs cfg moves).state ∨
      Step cfg allowed (runJobs cfg moves).state (runJobs cfg (moves ++ [move])).state := by
  rw [runJobs_append]
  exact (runJobs_sound hI hlinked hempty hmoves).moved move

end runs

end CwStation.Tasks
