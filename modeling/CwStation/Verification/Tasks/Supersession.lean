import CwStation.Verification.Tasks.Chains

/-! # Late completions are recorded on evidence

A retry is marked as superseded only when the row it replaced has completed after all, and a
retry that was cancelled stays cancelled. -/

namespace CwStation.Tasks

open Table Threads

variable {cfg : Settings} {allowed : Pass → Prop} {w w' : World}

/-- Every mark has its evidence in the tables. -/
structure Superseded (w : World) : Prop where
  marks : ∀ a ∈ w.attempts, a.parentCompletedAt.isSome →
    a.cause = .lost ∧ ∃ p, a.parentId = some p ∧ Done p w
  flags : ∀ a ∈ w.attempts, a.retryCancelled = true → Cancelled a.resultId w

/-! ## The evidence for one row -/

/-- What an attempt row has over the row it comes from. -/
structure Grounded (w : World) (a a' : TaskAttempt) : Prop extends Stays a a' where
  mark : a.parentCompletedAt = none → a'.parentCompletedAt.isSome →
    a.cause = .lost ∧ ∃ p, a.parentId = some p ∧ Done p w
  flag : a.retryCancelled = false → a'.retryCancelled = true → Cancelled a.resultId w

theorem grounded_refl (w : World) (a : TaskAttempt) : Grounded w a a := by
  refine ⟨Stays.refl a, ?_, ?_⟩
  · intro hnone hsome
    rw [hnone] at hsome
    cases hsome
  · intro hno hyes
    rw [hno] at hyes
    cases hyes

theorem grounded_pin (w : World) (a : TaskAttempt) (id n : ℕ) :
    Grounded w a { a with rootId := id, attempt := 1, maxAttempts := some n } := by
  have hrefl := grounded_refl w a
  exact ⟨⟨rfl, rfl, rfl, fun _ => rfl, fun h => h⟩, hrefl.mark, hrefl.flag⟩

theorem grounded_mark {p : TaskRow} {a : TaskAttempt} (status : Status) (completedAt : Time)
    (hp : w.task p.id = some p) (hdone : p.done = true) (hchild : reapedChild p.id a = true) :
    Grounded w a { a with parentCompletedAt := some completedAt, parentStatus := some status } := by
  simp only [reapedChild, Bool.and_eq_true, decide_eq_true_eq, Option.isNone_iff_eq_none] at hchild
  refine ⟨⟨rfl, rfl, rfl, ?_, fun h => h⟩, ?_, (grounded_refl w a).flag⟩
  · intro hsome
    rw [hchild.1.2] at hsome
    cases hsome
  · exact fun _ _ => ⟨hchild.2, p.id, hchild.1.1, p, hp, hdone⟩

theorem grounded_flag {a : TaskAttempt} (h : Cancelled a.resultId w) :
    Grounded w a { a with retryCancelled := true } :=
  ⟨⟨rfl, rfl, rfl, fun _ => rfl, fun _ => rfl⟩, (grounded_refl w a).mark, fun _ _ => h⟩

/-- Every attempt row is a new one without marks, or grounded in the row it was. -/
theorem Change.grounded (h : Change cfg allowed w w') {a' : TaskAttempt} (ha' : a' ∈ w'.attempts) :
    (∃ a ∈ w.attempts, Grounded w a a') ∨
      a'.parentCompletedAt = none ∧ a'.retryCancelled = false := by
  have hsame : a' ∈ w.attempts → (∃ a ∈ w.attempts, Grounded w a a') ∨
      a'.parentCompletedAt = none ∧ a'.retryCancelled = false :=
    fun ha => .inl ⟨a', ha, grounded_refl w a'⟩
  cases h with
  | pin id n now =>
    unfold World.pin at ha'
    split at ha'
    · obtain ⟨a, ha, he⟩ := mem_alter ha'
      refine .inl ⟨a, ha, ?_⟩
      rw [he]
      split
      · exact grounded_pin w a id n
      · exact grounded_refl w a
    · rcases List.mem_append.mp ha' with ha | hnew
      · exact hsame ha
      · rw [List.mem_singleton] at hnew
        rw [hnew]
        exact .inr ⟨rfl, rfl⟩
  | retry row decision new skew hp hran hspec hinfo hbudget hinsert =>
    obtain ⟨-, -, -, rfl⟩ := retryRow_eq hinsert
    rcases List.mem_append.mp ha' with ha | hnew
    · exact hsame ha
    · rw [List.mem_singleton] at hnew
      rw [hnew]
      exact .inr ⟨rfl, rfl⟩
  | mark status completedAt hp hdone =>
    obtain ⟨a, ha, he⟩ := List.mem_map.mp ha'
    refine .inl ⟨a, ha, ?_⟩
    rw [← he]
    split
    · rename_i hchild
      exact grounded_mark status completedAt hp hdone hchild
    · exact grounded_refl w a
  | flag parentId hcancelled =>
    obtain ⟨a, ha, he⟩ := List.mem_map.mp ha'
    refine .inl ⟨a, ha, ?_⟩
    rw [← he]
    split
    · rename_i hchild
      exact grounded_flag (hcancelled a ha hchild)
    · exact grounded_refl w a
  | register =>
    apply hsame
    unfold World.registerWorker at ha'
    split at ha' <;> exact ha'
  | tick =>
    apply hsame
    unfold World.tick at ha'
    split at ha' <;> exact ha'
  | idle | enqueue | claim | finish | reap | cancel | beat | stop | lapse | read | prune =>
    exact hsame ha'

/-! ## The evidence along a run -/

theorem Superseded.step (hs : Superseded w) (hstep : Step cfg allowed w w') : Superseded w' := by
  constructor
  · intro a' ha' hsome
    rcases hstep.2.grounded ha' with ⟨a, ha, hground⟩ | ⟨hnone, -⟩
    · have hevidence : a.cause = .lost ∧ ∃ p, a.parentId = some p ∧ Done p w := by
        cases hmark : a.parentCompletedAt with
        | none => exact hground.mark hmark hsome
        | some completedAt => exact hs.marks a ha (by simp [hmark])
      obtain ⟨hcause, p, hparent, hdone⟩ := hevidence
      refine ⟨hground.cause.trans hcause, p, hground.parentId.trans hparent, ?_⟩
      exact stable_done w w' hdone hstep
    · rw [hnone] at hsome
      cases hsome
  · intro a' ha' hyes
    rcases hstep.2.grounded ha' with ⟨a, ha, hground⟩ | ⟨-, hno⟩
    · have hcancelled : Cancelled a.resultId w := by
        cases hflag : a.retryCancelled with
        | false => exact hground.flag hflag hyes
        | true => exact hs.flags a ha hflag
      rw [hground.resultId]
      exact stable_cancelled w w' hcancelled hstep
    · rw [hno] at hyes
      cases hyes

theorem superseded_empty : Superseded {} := by
  constructor <;> intro a ha <;> cases ha

theorem stable_superseded :
    Stable (Step cfg allowed) fun w => Linked w ∧ Superseded w :=
  fun _ _ h hstep => ⟨h.1.step hstep.2, h.2.step hstep⟩

theorem stable_completed (id : ResultId) (completedAt : Time) : Stable (Step cfg allowed)
    fun w => ∃ a, w.attemptOf id = some a ∧ a.parentCompletedAt = some completedAt := by
  rintro w w' ⟨a, ha, hmark⟩ ⟨-, h⟩
  obtain ⟨a', ha', hstays⟩ := h.attempt ha
  exact ⟨a', ha', (hstays.completed (by simp [hmark])).trans hmark⟩

theorem stable_cancelledRow (id : ResultId) (t : TaskRow) (hcancelled : t.cancelled = true) :
    Stable (Step cfg allowed) fun w => w.task id = some t := by
  rintro w w' ht ⟨hl, h⟩
  obtain ⟨t', ht', hadv, -⟩ := h.row hl.toBase ht
  rw [ht', hadv.cancelled hcancelled]

section runs

variable {moves more : List (Move Job)}

theorem runJobs_superseded (cfg : Settings) (moves : List (Move Job)) :
    Superseded (runJobs cfg moves).state := by
  have hstable : Stable (Step cfg fun _ => True) fun w => Linked w ∧ Superseded w :=
    stable_superseded
  exact (runJobs_sound hstable (fun _ h => h.1) ⟨linked_empty, superseded_empty⟩
    fun job _ => job.allowed_true).state.2

/-- What no change undoes stays, whatever jobs there are. -/
theorem later {P : World → Prop} (hP : Stable (Step cfg fun _ => True) P)
    (h : P (runJobs cfg moves).state) : P (runJobs cfg (moves ++ more)).state := by
  have hstable : Stable (Step cfg fun _ => True) Linked := stable_linked
  exact runJobs_later hstable (fun _ h => h) linked_empty (fun job _ => job.allowed_true) hP h

/-- A row that has run is the only one that is ever retried. -/
theorem no_child_of_cancelled {id : ResultId} {t : TaskRow}
    (ht : (runJobs cfg moves).state.task id = some t) (hcancelled : t.cancelled = true) :
    ∀ a ∈ (runJobs cfg moves).state.attempts, a.parentId ≠ some id := by
  intro a ha hparent
  obtain ⟨hl, hc⟩ := runJobs_chained cfg moves
  obtain ⟨child, hchild, hretry⟩ := hl.recorded _ a (hl.attempt_of_mem ha)
  obtain ⟨q, hq, hran⟩ := hc.parentRan _ child id hchild (hretry.trans hparent)
  rw [ht, Option.some.injEq] at hq
  simp [TaskRow.cancelled, hq, hran] at hcancelled

end runs

/-! ## Rows over a run -/

/-- What a row has been through stays for the rest of a run. -/
structure Keeps (t t' : TaskRow) : Prop where
  id : t'.id = t.id
  spec : t'.spec = t.spec
  retryOf : t'.retryOf = t.retryOf
  claimed : t.ran = true → t'.ran = true ∧ t'.claim = t.claim
  left : t.status ≠ .ready → t'.status ≠ .ready
  done : t.done = true → t'.done = true
  cancelled : t.cancelled = true → t' = t

theorem Keeps.advance {t t' t'' : TaskRow} (h : Keeps t t') (hadv : Advances t' t'') :
    Keeps t t'' where
  id := hadv.id.trans h.id
  spec := hadv.spec.trans h.spec
  retryOf := hadv.retryOf.trans h.retryOf
  claimed hran := by
    obtain ⟨hran', hclaim⟩ := h.claimed hran
    exact ⟨hadv.ran hran', (hadv.claimed hran').trans hclaim⟩
  left hleft := hadv.left (h.left hleft)
  done hdone := hadv.done (h.done hdone)
  cancelled hcancelled := by
    obtain rfl := h.cancelled hcancelled
    exact hadv.cancelled hcancelled

theorem stable_keeps (id : ResultId) (t : TaskRow) : Stable (Step cfg allowed)
    fun w => ∃ t', w.task id = some t' ∧ Keeps t t' := by
  rintro w w' ⟨t', ht', hkeeps⟩ ⟨hl, h⟩
  obtain ⟨t'', ht'', hadv, -⟩ := h.row hl.toBase ht'
  exact ⟨t'', ht'', hkeeps.advance hadv⟩

theorem Stays.trans {a a' a'' : TaskAttempt} (h : Stays a a') (h' : Stays a' a'') : Stays a a'' where
  resultId := h'.resultId.trans h.resultId
  parentId := h'.parentId.trans h.parentId
  cause := h'.cause.trans h.cause
  completed hsome := by
    have hsame : a'.parentCompletedAt = a.parentCompletedAt := h.completed hsome
    rw [← hsame] at hsome ⊢
    exact h'.completed hsome
  cancelled hyes := h'.cancelled (h.cancelled hyes)

theorem stable_stays (id : ResultId) (a : TaskAttempt) : Stable (Step cfg allowed)
    fun w => ∃ a', w.attemptOf id = some a' ∧ Stays a a' := by
  rintro w w' ⟨a', ha', hstays⟩ ⟨-, h⟩
  obtain ⟨a'', ha'', hstays'⟩ := h.attempt ha'
  exact ⟨a'', ha'', hstays.trans hstays'⟩

/-- The tables only grow, and no row in them starts over. -/
structure Extends (w w' : World) : Prop where
  tasks : ∀ id t, w.task id = some t → ∃ t', w'.task id = some t' ∧ Keeps t t'
  attempts : ∀ id a, w.attemptOf id = some a → ∃ a', w'.attemptOf id = some a' ∧ Stays a a'

/-- However the jobs interleave: a row that a worker has claimed keeps that claim, a row that has
left the queue is never queued again, one with a result of its own keeps such a result, and the
place of an attempt in its chain never changes. -/
theorem no_row_starts_over (cfg : Settings) (moves more : List (Move Job)) :
    Extends (runJobs cfg moves).state (runJobs cfg (moves ++ more)).state where
  tasks id t ht := by
    have hkeeps : Keeps t t := ⟨rfl, rfl, rfl, fun h => ⟨h, rfl⟩, fun h => h, fun h => h, fun _ => rfl⟩
    exact later (stable_keeps id t) ⟨t, ht, hkeeps⟩
  attempts id a ha := later (stable_stays id a) ⟨a, ha, Stays.refl a⟩

/-- However the jobs interleave: an attempt row carries a late completion only if it replaced a
lost attempt whose row has ended with a result of its own, and carries it for good; only a retry
that no worker ever claims is flagged as cancelled; a waiting row that fails was cancelled, and a
cancelled row stays as it is and is never retried. -/
theorem supersession_on_evidence (cfg : Settings) (moves more : List (Move Job)) (move : Move Job) :
    let w := (runJobs cfg moves).state
    let next := (runJobs cfg (moves ++ [move])).state
    let w' := (runJobs cfg (moves ++ more)).state
    (∀ a ∈ w.attempts, a.parentCompletedAt.isSome →
      a.cause = .lost ∧ ∃ p t, a.parentId = some p ∧ w.task p = some t ∧ t.done = true) ∧
    (∀ id a completedAt, w.attemptOf id = some a → a.parentCompletedAt = some completedAt →
      ∃ a', w'.attemptOf id = some a' ∧ a'.parentCompletedAt = some completedAt) ∧
    (∀ a ∈ w.attempts, a.retryCancelled = true →
      ∃ t, w'.task a.resultId = some t ∧ t.workerIds = []) ∧
    (∀ id t t', w.task id = some t → t.status = .ready → next.task id = some t' →
      t'.status = .failed → t'.cancelled = true) ∧
    ∀ id t, w.task id = some t → t.cancelled = true →
      w'.task id = some t ∧ t.workerIds = [] ∧ ∀ a ∈ w'.attempts, a.parentId ≠ some id := by
  have hs := runJobs_superseded cfg moves
  have hunclaimed : ∀ t : TaskRow, t.cancelled = true → t.workerIds = [] := by
    intro t hcancelled
    simp only [TaskRow.cancelled, TaskRow.ran, Bool.and_eq_true, Bool.not_not,
      List.isEmpty_iff] at hcancelled
    exact hcancelled.2
  refine ⟨?_, ?_, ?_, ?_, ?_⟩
  · intro a ha hsome
    obtain ⟨hcause, p, hparent, t, ht, hdone⟩ := hs.marks a ha hsome
    exact ⟨hcause, p, t, hparent, ht, hdone⟩
  · intro id a completedAt ha hmark
    exact later (stable_completed id completedAt) ⟨a, ha, hmark⟩
  · intro a ha hyes
    have hkept : Cancelled a.resultId (runJobs cfg (moves ++ more)).state :=
      later stable_cancelled (hs.flags a ha hyes)
    obtain ⟨t, ht, hcancelled⟩ := hkept
    exact ⟨t, ht, hunclaimed t hcancelled⟩
  · intro id t t' ht hready ht' hfailed
    have hstable : Stable (Step cfg fun _ => True) Linked := stable_linked
    rcases runJobs_moved hstable (fun _ h => h) linked_empty (fun job _ => job.allowed_true) move
      with hsame | ⟨hl, h⟩
    · rw [hsame, ht, Option.some.injEq] at ht'
      rw [← ht', hready] at hfailed
      cases hfailed
    · obtain ⟨u, hu, hadv, -⟩ := h.row hl.toBase ht
      rw [hu, Option.some.injEq] at ht'
      rw [← ht'] at hfailed ⊢
      exact hadv.dropped hready hfailed
  · intro id t ht hcancelled
    have hkept : (runJobs cfg (moves ++ more)).state.task id = some t :=
      later (stable_cancelledRow id t hcancelled) ht
    exact ⟨hkept, hunclaimed t hcancelled, no_child_of_cancelled hkept hcancelled⟩

end CwStation.Tasks
