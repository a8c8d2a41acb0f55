import CwStation.Model.Reaper

/-! # What a statement can do to the tables

Every statement of every job is one of the changes below, made under the condition that stands
with it. All invariants are about changes; the programs are looked at once, in
`CwStation.Verification.Tasks.Programs`. -/

namespace CwStation.Tasks

open Table

variable {w w' : World} {id j : ResultId} {t t' : TaskRow} {f : TaskRow → TaskRow}

/-! ## Lookups -/

theorem task_alterTask (hf : ∀ t, (f t).id = t.id) :
    (w.alterTask id f).task j = if j = id then (w.task id).map f else w.task j :=
  get_alter hf

theorem task_append (h : w'.tasks = w.tasks ++ [t]) :
    w'.task j = (w.task j).or (if t.id = j then some t else none) := by
  rw [World.task, h, get_append]
  rfl

theorem attemptOf_append {a : TaskAttempt} (h : w'.attempts = w.attempts ++ [a]) :
    w'.attemptOf j = (w.attemptOf j).or (if a.resultId = j then some a else none) := by
  rw [World.attemptOf, h, get_append]
  rfl

theorem attemptOf_map {g : TaskAttempt → TaskAttempt} (h : w'.attempts = w.attempts.map g)
    (hg : ∀ a, (g a).resultId = a.resultId) : w'.attemptOf j = (w.attemptOf j).map g := by
  rw [World.attemptOf, h, get_map hg]
  rfl

theorem attemptOf_alter {g : TaskAttempt → TaskAttempt}
    (h : w'.attempts = alter TaskAttempt.resultId id g w.attempts)
    (hg : ∀ a, (g a).resultId = a.resultId) :
    w'.attemptOf j = if j = id then (w.attemptOf id).map g else w.attemptOf j := by
  rw [World.attemptOf, h]
  exact get_alter hg

theorem id_of_task (h : w.task id = some t) : t.id = id := key_of_get h

theorem attemptInfo_of_some {a : TaskAttempt} (h : w.attemptOf id = some a) :
    w.attemptInfo id = a.info := by
  simp [World.attemptInfo, h]

theorem attemptInfo_of_none (h : w.attemptOf id = none) : w.attemptInfo id = ⟨id, 1, none⟩ := by
  simp [World.attemptInfo, h]

theorem pinnable_iff : w.pinnable id = true ↔
    ∃ t, w.task id = some t ∧ t.status = .ready ∧ t.retryOf = none := by
  cases h : w.task id <;> simp [World.pinnable, h]

/-! ## Changes -/

/-- What one statement does; `allowed` are the passes that the reaper may make. -/
inductive Change (cfg : Settings) (allowed : Pass → Prop) : World → World → Prop
  | idle (w : World) : Change cfg allowed w w
  | enqueue {w : World} (t : TaskRow) (hnew : w.task t.id = none) (hready : t.status = .ready)
      (hran : t.ran = false) (hfirst : t.retryOf = none) :
      Change cfg allowed w { w with tasks := w.tasks ++ [t] }
  | pin {w : World} (id : ResultId) (n : ℕ) (now : Time) (h : w.pinnable id = true) :
      Change cfg allowed w (w.pin id n now)
  | claim {w : World} {t : TaskRow} (worker : Str) (now : Time) (ht : w.task t.id = some t)
      (hready : t.status = .ready) :
      Change cfg allowed w (w.alterTask t.id (claimRow worker now))
  | finish {w : World} {t : TaskRow} (outcome : Outcome) (now : Time) (ht : w.task t.id = some t)
      (hran : t.ran = true) : Change cfg allowed w (w.alterTask t.id (finishRow outcome now))
  | reap {w : World} {t : TaskRow} (now : Time) (reading : Reading) (row : TaskRow)
      (ht : w.task t.id = some t) (hrunning : t.status = .running)
      (hreading : reading ∈ w.readings) (hrow : row ∈ reading.running)
      (hclaim : t.claim = row.claim) (hlost : (reading.verdict cfg row).isSome) :
      Change cfg allowed w (w.alterTask t.id (markLost reading.serial now))
  | cancel {w : World} {t : TaskRow} {a : TaskAttempt} (now : Time) (ht : w.task t.id = some t)
      (hready : t.status = .ready) (ha : w.attemptOf t.id = some a)
      (hmarked : a.parentCompletedAt.isSome) :
      Change cfg allowed w (w.alterTask t.id (supersede now))
  | retry {w w' : World} {p : TaskRow} (row : TaskRow) (decision : Decision) (new : ResultId)
      (skew : Time) (hp : w.task row.id = some p) (hran : p.ran = true) (hspec : row.spec = p.spec)
      (hinfo : decision.info = w.attemptInfo row.id)
      (hbudget : decision.info.attempt < budgetOf cfg row.spec.taskPath decision.info.maxAttempts)
      (hinsert : retryRow row decision new skew w = some w') : Change cfg allowed w w'
  | mark {w : World} {p : TaskRow} (status : Status) (completedAt : Time)
      (hp : w.task p.id = some p) (hdone : p.done = true) :
      Change cfg allowed w (markCompleted p.id status completedAt w).2
  | flag {w : World} (parentId : ResultId)
      (h : ∀ a ∈ w.attempts, a.parentId = some parentId →
        ∃ t, w.task a.resultId = some t ∧ t.cancelled = true) :
      Change cfg allowed w (flagCancelled parentId w)
  | register {w : World} (label token : Str) :
      Change cfg allowed w (w.registerWorker (newIncarnation label token))
  | beat {w : World} (worker : Str) : Change cfg allowed w (w.beat worker)
  | stop {w : World} (worker : Str) : Change cfg allowed w (w.markStopped worker)
  | lapse {w : World} (worker : Str) : Change cfg allowed w (w.lapse worker)
  | tick {w : World} (d : ℕ) : Change cfg allowed w (w.tick cfg d)
  | read {w : World} (pass : Pass) (now : Time) (running : List TaskRow) (hpass : allowed pass)
      (hnow : now ≤ w.clock + pass.skew)
      (h : ∀ row ∈ running, ∃ t, w.task row.id = some t ∧ row.ran = true ∧ t.claim = row.claim) :
      Change cfg allowed w (w.readHeartbeats pass.own now running).2
  | prune {w : World} (pass : Pass) (cutoff : Time) (hpass : allowed pass)
      (h : cutoff ≤ w.clock + pass.skew - heartbeatRetention) :
      Change cfg allowed w (w.pruneHeartbeats cutoff).2

/-! ## The life of a row -/

/-- A row runs only after a worker has claimed it; the only other way out of the queue is to be
cancelled. -/
def TaskRow.Ok (t : TaskRow) : Prop :=
  match t.status with
  | .ready => t.ran = false
  | .running | .successful => t.ran = true
  | .failed => t.ran = true ∨ t.cancelled = true

/-- What has happened to a row stays. -/
structure Advances (t t' : TaskRow) : Prop where
  id : t'.id = t.id
  spec : t'.spec = t.spec
  retryOf : t'.retryOf = t.retryOf
  claimed : t.ran = true → t'.claim = t.claim
  left : t.status ≠ .ready → t'.status ≠ .ready
  done : t.done = true → t'.done = true
  cancelled : t.cancelled = true → t' = t
  dropped : t.status = .ready → t'.status = .failed → t'.cancelled = true

theorem Advances.refl (t : TaskRow) : Advances t t := by
  refine ⟨rfl, rfl, rfl, fun _ => rfl, fun h => h, fun h => h, fun _ => rfl, ?_⟩
  intro hready hfailed
  rw [hready] at hfailed
  cases hfailed

theorem Advances.ran (h : Advances t t') (hran : t.ran = true) : t'.ran = true := by
  have hids : t'.workerIds = t.workerIds := congrArg Prod.fst (h.claimed hran)
  rw [TaskRow.ran, hids]
  exact hran

theorem TaskRow.Ok.ran (h : t.Ok) (hleft : t.status ≠ .ready) (hcancelled : t.cancelled = false) :
    t.ran = true := by
  unfold TaskRow.Ok at h
  cases hs : t.status with
  | ready => exact absurd hs hleft
  | running | successful => simpa [hs] using h
  | failed => simpa [hs, hcancelled] using h

section advances

variable (h : t.Ok)

include h in
theorem claimRow_advances (worker : Str) (now : Time) (hready : t.status = .ready) :
    Advances t (claimRow worker now t) ∧ (claimRow worker now t).Ok := by
  have hran : t.ran = false := by simpa [TaskRow.Ok, hready] using h
  refine ⟨⟨rfl, rfl, rfl, ?_, ?_, ?_, ?_, ?_⟩, ?_⟩
  · intro hyes
    rw [hran] at hyes
    cases hyes
  · exact fun hleft => absurd hready hleft
  · intro hdone
    simp [TaskRow.done, hready] at hdone
  · intro hcancelled
    simp [TaskRow.cancelled, hready] at hcancelled
  · intro _ hfailed
    cases hfailed
  · simp [TaskRow.Ok, claimRow, TaskRow.ran]

theorem finishRow_done (outcome : Outcome) (now : Time) (t : TaskRow) :
    (finishRow outcome now t).done = true := by
  cases outcome with
  | successful => rfl
  | failed path raised => simp [TaskRow.done, finishRow, Outcome.status, Outcome.path, raised]

include h in
theorem finishRow_advances (outcome : Outcome) (now : Time) (hran : t.ran = true) :
    Advances t (finishRow outcome now t) ∧ (finishRow outcome now t).Ok := by
  have hran' : (finishRow outcome now t).ran = true := hran
  refine ⟨⟨rfl, rfl, rfl, fun _ => rfl, ?_, fun _ => finishRow_done outcome now t, ?_, ?_⟩, ?_⟩
  · intro _
    cases outcome <;> simp [finishRow, Outcome.status]
  · intro hcancelled
    simp [TaskRow.cancelled, hran] at hcancelled
  · intro hready
    simp [TaskRow.Ok, hready, hran] at h
  · cases outcome with
    | successful => exact hran'
    | failed path raised => exact .inl hran'

include h in
theorem markLost_advances (serial : ℕ) (now : Time) (hrunning : t.status = .running) :
    Advances t (markLost serial now t) ∧ (markLost serial now t).Ok := by
  have hran : t.ran = true := by simpa [TaskRow.Ok, hrunning] using h
  refine ⟨⟨rfl, rfl, rfl, fun _ => rfl, ?_, ?_, ?_, ?_⟩, .inl hran⟩
  · intro _ hready
    cases hready
  · intro hdone
    simp [TaskRow.done, hrunning] at hdone
  · intro hcancelled
    simp [TaskRow.cancelled, hrunning] at hcancelled
  · intro hready
    rw [hrunning] at hready
    cases hready

include h in
theorem supersede_advances (now : Time) (hready : t.status = .ready) :
    Advances t (supersede now t) ∧ (supersede now t).Ok ∧ (supersede now t).cancelled = true := by
  have hran : t.ran = false := by simpa [TaskRow.Ok, hready] using h
  have hcancelled : (supersede now t).cancelled = true := by
    have hran' : (supersede now t).ran = false := hran
    rw [TaskRow.cancelled, hran']
    simp [supersede]
  refine ⟨⟨rfl, rfl, rfl, fun _ => rfl, ?_, ?_, ?_, fun _ _ => hcancelled⟩, .inr hcancelled,
    hcancelled⟩
  · exact fun hleft => absurd hready hleft
  · intro hdone
    simp [TaskRow.done, hready] at hdone
  · intro hbefore
    simp [TaskRow.cancelled, hready] at hbefore

end advances

/-! ## Rows along a change -/

/-- No two rows have one id, and all have led a life as above. -/
structure Base (w : World) : Prop where
  ids : Unique TaskRow.id w.tasks
  rows : ∀ id t, w.task id = some t → t.Ok

theorem retryRow_eq {row : TaskRow} {decision : Decision} {new : ResultId} {skew : Time}
    (h : retryRow row decision new skew w = some w') :
    w.task new = none ∧ w.attemptOf new = none ∧ (∀ a ∈ w.attempts, a.parentId ≠ some row.id) ∧
      w' = { w with
        tasks := w.tasks ++ [retryTask row new (w.clock + skew)]
        attempts := w.attempts ++ [retryAttempt row decision new (w.clock + skew)] } := by
  simp only [retryRow, World.insertTask, Option.bind_eq_bind] at h
  split at h
  · cases h
  · rename_i hnew
    simp only [Option.bind_some, World.insertAttempt] at h
    split at h
    · cases h
    · rename_i hfree
      simp only [not_or, not_and, Bool.not_eq_true, Option.isSome_eq_false_iff,
        Option.isNone_iff_eq_none, List.any_eq_false, decide_eq_true_eq] at hfree hnew
      refine ⟨hnew, hfree.1, hfree.2 rfl, ?_⟩
      cases h
      rfl

section rows

variable {cfg : Settings} {allowed : Pass → Prop}

theorem alterTask_rows (hb : Base w) (hf : ∀ t, (f t).id = t.id) {t₀ : TaskRow}
    (ht₀ : w.task t₀.id = some t₀) (hadv : Advances t₀ (f t₀) ∧ (f t₀).Ok)
    (ht : w.task id = some t) :
    ∃ t', (w.alterTask t₀.id f).task id = some t' ∧ Advances t t' ∧ t'.Ok := by
  rw [task_alterTask hf]
  by_cases hid : id = t₀.id
  · subst hid
    rw [ht₀, Option.some.injEq] at ht
    subst ht
    rw [if_pos rfl, ht₀]
    exact ⟨_, rfl, hadv⟩
  · rw [if_neg hid]
    exact ⟨t, ht, Advances.refl t, hb.rows id t ht⟩

/-- A row that is there stays and advances. -/
theorem Change.row (hb : Base w) (h : Change cfg allowed w w') (ht : w.task id = some t) :
    ∃ t', w'.task id = some t' ∧ Advances t t' ∧ t'.Ok := by
  have hsame : ∃ t', w.task id = some t' ∧ Advances t t' ∧ t'.Ok :=
    ⟨t, ht, Advances.refl t, hb.rows id t ht⟩
  cases h with
  | idle => exact hsame
  | enqueue u =>
    exact ⟨t, get_append_of_some u ht, Advances.refl t, hb.rows id t ht⟩
  | pin j n now =>
    unfold World.pin
    split <;> exact hsame
  | claim worker now ht₀ hready =>
    exact alterTask_rows (f := claimRow worker now) hb (fun _ => rfl) ht₀
      (claimRow_advances (hb.rows _ _ ht₀) _ _ hready) ht
  | finish outcome now ht₀ hran =>
    exact alterTask_rows (f := finishRow outcome now) hb (fun _ => rfl) ht₀
      (finishRow_advances (hb.rows _ _ ht₀) _ _ hran) ht
  | reap now reading row ht₀ hrunning =>
    exact alterTask_rows (f := markLost reading.serial now) hb (fun _ => rfl) ht₀
      (markLost_advances (hb.rows _ _ ht₀) _ _ hrunning) ht
  | cancel now ht₀ hready =>
    have hadv := supersede_advances (hb.rows _ _ ht₀) now hready
    exact alterTask_rows (f := supersede now) hb (fun _ => rfl) ht₀ ⟨hadv.1, hadv.2.1⟩ ht
  | retry row decision new skew hp hran hspec hinfo hbudget hinsert =>
    obtain ⟨-, -, -, rfl⟩ := retryRow_eq hinsert
    exact ⟨t, get_append_of_some _ ht, Advances.refl t, hb.rows id t ht⟩
  | register =>
    unfold World.registerWorker
    split <;> exact hsame
  | tick =>
    unfold World.tick
    split <;> exact hsame
  | mark | flag | beat | stop | lapse | read | prune => exact hsame

/-- A row that was not there waits for a worker; as a retry it has its attempt row, and the row
it retries has run. -/
theorem Change.new (h : Change cfg allowed w w') (hnone : w.task id = none)
    (ht : w'.task id = some t) : t.status = .ready ∧ t.ran = false ∧
      ∀ j, t.retryOf = some j → (w'.attemptOf id).isSome ∧ ∃ p, w.task j = some p ∧ p.ran = true := by
  have habsurd : w.task id = some t → t.status = .ready ∧ t.ran = false ∧
      ∀ j, t.retryOf = some j →
        (w'.attemptOf id).isSome ∧ ∃ p, w.task j = some p ∧ p.ran = true := by
    intro hsome
    rw [hnone] at hsome
    cases hsome
  have halter : ∀ {t₀ : TaskRow} {f : TaskRow → TaskRow}, (∀ t, (f t).id = t.id) →
      w.task t₀.id = some t₀ → (w.alterTask t₀.id f).task id ≠ some t := by
    intro t₀ f hf ht₀ hsome
    rw [task_alterTask hf] at hsome
    split at hsome
    · rename_i hid
      rw [hid, ht₀] at hnone
      cases hnone
    · rw [hnone] at hsome
      cases hsome
  cases h with
  | idle => exact habsurd ht
  | enqueue u hnew hready hran hfirst =>
    rw [task_append rfl, hnone, Option.none_or] at ht
    split at ht
    · cases ht
      exact ⟨hready, hran, by simp [hfirst]⟩
    · cases ht
  | pin j n now =>
    apply habsurd
    unfold World.pin at ht
    split at ht <;> exact ht
  | claim worker now ht₀ => exact absurd ht (halter (fun _ => rfl) ht₀)
  | finish outcome now ht₀ => exact absurd ht (halter (fun _ => rfl) ht₀)
  | reap now reading row ht₀ => exact absurd ht (halter (fun _ => rfl) ht₀)
  | cancel now ht₀ => exact absurd ht (halter (fun _ => rfl) ht₀)
  | retry row decision new skew hp hran hspec hinfo hbudget hinsert =>
    obtain ⟨-, -, -, rfl⟩ := retryRow_eq hinsert
    rw [task_append rfl, hnone, Option.none_or] at ht
    split at ht
    · rename_i hid
      cases ht
      refine ⟨rfl, rfl, ?_⟩
      intro j hj
      cases hj
      refine ⟨?_, _, hp, hran⟩
      exact get_isSome_iff.mpr ⟨_, List.mem_append_right _ (List.mem_singleton.mpr rfl), hid⟩
    · cases ht
  | register =>
    apply habsurd
    unfold World.registerWorker at ht
    split at ht <;> exact ht
  | tick =>
    apply habsurd
    unfold World.tick at ht
    split at ht <;> exact ht
  | mark | flag | beat | stop | lapse | read | prune => exact habsurd ht

theorem Base.step (hb : Base w) (h : Change cfg allowed w w') : Base w' := by
  constructor
  · cases h with
    | enqueue t hnew => exact hb.ids.append hnew
    | retry row decision new skew hp hran hspec hinfo hbudget hinsert =>
      obtain ⟨hnew, -, -, rfl⟩ := retryRow_eq hinsert
      exact hb.ids.append hnew
    | pin id n now =>
      unfold World.pin
      split <;> exact hb.ids
    | claim | finish | reap | cancel => exact hb.ids.alter fun _ => rfl
    | register =>
      unfold World.registerWorker
      split <;> exact hb.ids
    | tick =>
      unfold World.tick
      split <;> exact hb.ids
    | idle | mark | flag | beat | stop | lapse | read | prune => exact hb.ids
  · intro id t' ht'
    cases ht : w.task id with
    | some t =>
      obtain ⟨u, hu, -, hok⟩ := h.row hb ht
      rw [hu, Option.some.injEq] at ht'
      exact ht' ▸ hok
    | none =>
      obtain ⟨hready, hran, -⟩ := h.new ht ht'
      simpa [TaskRow.Ok, hready] using hran

end rows

/-! ## Attempt rows along a change -/

/-- What an attempt row says stays, but for the budget of a first attempt. -/
structure Stays (a a' : TaskAttempt) : Prop where
  resultId : a'.resultId = a.resultId
  parentId : a'.parentId = a.parentId
  cause : a'.cause = a.cause
  completed : a.parentCompletedAt.isSome → a'.parentCompletedAt = a.parentCompletedAt
  cancelled : a.retryCancelled = true → a'.retryCancelled = true

theorem Stays.refl (a : TaskAttempt) : Stays a a := ⟨rfl, rfl, rfl, fun _ => rfl, fun h => h⟩

/-- An attempt row that was not there: its task row is not there either or is a first attempt,
and no other row has its parent. -/
structure Joins (w w' : World) (a : TaskAttempt) : Prop where
  attempts : w'.attempts = w.attempts ++ [a]
  new : w.attemptOf a.resultId = none
  parents : ∀ b ∈ w.attempts, a.parentId.isSome → b.parentId ≠ a.parentId
  task : ∃ t, w'.task a.resultId = some t ∧ t.retryOf = a.parentId
  unmarked : a.parentCompletedAt = none ∧ a.retryCancelled = false

section attempts

variable {cfg : Settings} {allowed : Pass → Prop} {a : TaskAttempt}

theorem Change.attempts (h : Change cfg allowed w w') :
    (∃ f : TaskAttempt → TaskAttempt, w'.attempts = w.attempts.map f ∧ ∀ a, Stays a (f a)) ∨
      ∃ a, Joins w w' a := by
  have hsame : ∀ {w' : World}, w'.attempts = w.attempts →
      (∃ f : TaskAttempt → TaskAttempt, w'.attempts = w.attempts.map f ∧ ∀ a, Stays a (f a)) ∨
        ∃ a, Joins w w' a :=
    fun h => .inl ⟨fun a => a, by simp [h], Stays.refl⟩
  cases h with
  | pin id n now hpin =>
    unfold World.pin
    split
    · refine .inl ⟨_, rfl, fun a => ?_⟩
      split
      · exact ⟨rfl, rfl, rfl, fun _ => rfl, fun h => h⟩
      · exact Stays.refl a
    · rename_i hnone
      rw [Bool.not_eq_true, Option.isSome_eq_false_iff, Option.isNone_iff_eq_none] at hnone
      refine .inr ⟨_, rfl, hnone, by simp, ?_, rfl, rfl⟩
      obtain ⟨t, ht, -, hfirst⟩ := pinnable_iff.mp hpin
      exact ⟨t, ht, hfirst⟩
  | retry row decision new skew hp hran hspec hinfo hbudget hinsert =>
    obtain ⟨hnew, hattempt, hfree, rfl⟩ := retryRow_eq hinsert
    refine .inr ⟨_, rfl, hattempt, fun b hb _ => hfree b hb, ?_, rfl, rfl⟩
    refine ⟨retryTask row new (w.clock + skew), ?_, rfl⟩
    rw [task_append rfl]
    have hnone : w.task (retryAttempt row decision new (w.clock + skew)).resultId = none := hnew
    rw [hnone, Option.none_or]
    exact if_pos rfl
  | mark status completedAt =>
    refine .inl ⟨_, rfl, fun a => ?_⟩
    split
    · rename_i hchild
      refine ⟨rfl, rfl, rfl, fun hsome => ?_, fun h => h⟩
      simp only [reapedChild, Bool.and_eq_true, Option.isNone_iff_eq_none] at hchild
      rw [hchild.1.2] at hsome
      cases hsome
    · exact Stays.refl a
  | flag parentId =>
    refine .inl ⟨_, rfl, fun a => ?_⟩
    split
    · exact ⟨rfl, rfl, rfl, fun _ => rfl, fun _ => rfl⟩
    · exact Stays.refl a
  | register =>
    unfold World.registerWorker
    split <;> exact hsame rfl
  | tick =>
    unfold World.tick
    split <;> exact hsame rfl
  | idle | enqueue | claim | finish | reap | cancel | beat | stop | lapse | read | prune =>
    exact hsame rfl

theorem Change.attempt (h : Change cfg allowed w w') (ha : w.attemptOf id = some a) :
    ∃ a', w'.attemptOf id = some a' ∧ Stays a a' := by
  obtain ⟨f, hmap, hstays⟩ | ⟨b, hjoin⟩ := h.attempts
  · refine ⟨f a, ?_, hstays a⟩
    rw [attemptOf_map hmap fun a => (hstays a).resultId, ha, Option.map_some]
  · refine ⟨a, ?_, Stays.refl a⟩
    rw [attemptOf_append hjoin.attempts, ha, Option.some_or]

end attempts

/-! ## Links between the tables -/

/-- Every retry has its attempt row, which names the row it retries; no two name the same. -/
structure Linked (w : World) : Prop extends Base w where
  attemptIds : Unique TaskAttempt.resultId w.attempts
  parents : ∀ a ∈ w.attempts, ∀ b ∈ w.attempts, a.parentId.isSome → a.parentId = b.parentId → a = b
  recorded : ∀ id a, w.attemptOf id = some a → ∃ t, w.task id = some t ∧ t.retryOf = a.parentId
  retries : ∀ id t, w.task id = some t → t.retryOf.isSome → (w.attemptOf id).isSome

section linked

variable {cfg : Settings} {allowed : Pass → Prop} {a b : TaskAttempt}

theorem Linked.attempt_of_mem (hl : Linked w) (ha : a ∈ w.attempts) :
    w.attemptOf a.resultId = some a :=
  get_of_mem hl.attemptIds ha

/-- A row that was there keeps its link. -/
theorem Linked.recorded_step (hl : Linked w) (h : Change cfg allowed w w')
    (ha : w.attemptOf id = some a) (hb : b.parentId = a.parentId) :
    ∃ t, w'.task id = some t ∧ t.retryOf = b.parentId := by
  obtain ⟨t, ht, hretry⟩ := hl.recorded id a ha
  obtain ⟨t', ht', hadv, -⟩ := h.row hl.toBase ht
  exact ⟨t', ht', by rw [hadv.retryOf, hretry, hb]⟩

theorem Linked.step (hl : Linked w) (h : Change cfg allowed w w') : Linked w' := by
  have hretries : ∀ id t', w'.task id = some t' → t'.retryOf.isSome →
      (w'.attemptOf id).isSome := by
    intro id t' ht' hsome
    cases ht : w.task id with
    | none =>
      obtain ⟨j, hj⟩ := Option.isSome_iff_exists.mp hsome
      exact ((h.new ht ht').2.2 j hj).1
    | some t =>
      obtain ⟨u, hu, hadv, -⟩ := h.row hl.toBase ht
      rw [hu, Option.some.injEq] at ht'
      rw [← ht', hadv.retryOf] at hsome
      obtain ⟨a, ha⟩ := Option.isSome_iff_exists.mp (hl.retries id t ht hsome)
      obtain ⟨a', ha', -⟩ := h.attempt ha
      rw [ha']
      rfl
  obtain ⟨f, hmap, hstays⟩ | ⟨new, hjoin⟩ := h.attempts
  · have hkey : ∀ a, (f a).resultId = a.resultId := fun a => (hstays a).resultId
    refine ⟨hl.toBase.step h, ?_, ?_, ?_, hretries⟩
    · rw [hmap]
      exact hl.attemptIds.map hkey
    · intro a ha b hb hsome hsame
      rw [hmap] at ha hb
      obtain ⟨a₀, ha₀, rfl⟩ := List.mem_map.mp ha
      obtain ⟨b₀, hb₀, rfl⟩ := List.mem_map.mp hb
      rw [(hstays a₀).parentId, (hstays b₀).parentId] at hsame
      rw [(hstays a₀).parentId] at hsome
      rw [hl.parents a₀ ha₀ b₀ hb₀ hsome hsame]
    · intro id a' ha'
      rw [attemptOf_map hmap hkey] at ha'
      obtain ⟨a, ha, rfl⟩ := Option.map_eq_some_iff.mp ha'
      exact hl.recorded_step h ha (hstays a).parentId
  · refine ⟨hl.toBase.step h, ?_, ?_, ?_, hretries⟩
    · rw [hjoin.attempts]
      exact hl.attemptIds.append hjoin.new
    · intro a ha b hb hsome hsame
      rw [hjoin.attempts, List.mem_append, List.mem_singleton] at ha hb
      rcases ha with ha | rfl <;> rcases hb with hb | rfl
      · exact hl.parents a ha b hb hsome hsame
      · exact absurd hsame (hjoin.parents a ha (hsame ▸ hsome))
      · exact absurd hsame.symm (hjoin.parents b hb hsome)
      · rfl
    · intro id a' ha'
      rw [attemptOf_append hjoin.attempts] at ha'
      cases ha : w.attemptOf id with
      | some a =>
        rw [ha, Option.some_or, Option.some.injEq] at ha'
        subst ha'
        exact hl.recorded_step h ha rfl
      | none =>
        rw [ha, Option.none_or] at ha'
        split at ha'
        · rename_i hid
          cases ha'
          rw [← hid]
          exact hjoin.task
        · cases ha'

/-- The place of a row in its chain is settled once it has left the queue. -/
theorem Change.info (h : Change cfg allowed w w') (ht : w.task id = some t)
    (hleft : t.status ≠ .ready) : w'.attemptInfo id = w.attemptInfo id := by
  have hmap : ∀ {w' : World} {f : TaskAttempt → TaskAttempt}, w'.attempts = w.attempts.map f →
      (∀ a, (f a).resultId = a.resultId) → (∀ a, a.resultId = id → (f a).info = a.info) →
      w'.attemptInfo id = w.attemptInfo id := by
    intro w' f hw hid hinfo
    rw [World.attemptInfo, World.attemptInfo, attemptOf_map hw hid]
    cases ha : w.attemptOf id with
    | none => rfl
    | some a => simp [hinfo a (key_of_get ha)]
  have hjoin : ∀ {w' : World} {a : TaskAttempt}, w'.attempts = w.attempts ++ [a] →
      a.resultId ≠ id → w'.attemptInfo id = w.attemptInfo id := by
    intro w' a hw hne
    rw [World.attemptInfo, World.attemptInfo, attemptOf_append hw, if_neg hne, Option.or_none]
  cases h with
  | pin j n now hpin =>
    obtain ⟨u, hu, hready, -⟩ := pinnable_iff.mp hpin
    have hne : id ≠ j := by
      intro he
      rw [he, hu, Option.some.injEq] at ht
      exact hleft (ht ▸ hready)
    unfold World.pin
    split
    · refine hmap rfl (key_alter fun _ => rfl) ?_
      intro a ha
      rw [if_neg fun he => hne (ha.symm.trans he)]
    · exact hjoin rfl hne.symm
  | retry row decision new skew hp hran hspec hinfo hbudget hinsert =>
    obtain ⟨hnew, -, -, rfl⟩ := retryRow_eq hinsert
    refine hjoin rfl fun he => ?_
    have hid : new = id := he
    rw [hid, ht] at hnew
    cases hnew
  | mark status completedAt =>
    refine hmap rfl ?_ ?_ <;> intros <;> split <;> rfl
  | flag parentId =>
    refine hmap rfl ?_ ?_ <;> intros <;> split <;> rfl
  | register =>
    unfold World.registerWorker
    split <;> rfl
  | tick =>
    unfold World.tick
    split <;> rfl
  | idle | enqueue | claim | finish | reap | cancel | beat | stop | lapse | read | prune => rfl

end linked

end CwStation.Tasks
