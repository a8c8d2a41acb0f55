import CwStation.Verification.Tasks.Changes

/-! # Retries of a pass that nothing interrupts

What a pass enqueues is told from the tables that it finds. -/

namespace CwStation.Tasks

open Table Threads

variable {cfg : Settings} {fresh : ResultId → ResultId} {skew : Time} {cause : Cause} {w : World}
  {id : ResultId} {row : TaskRow}

/-- The ids that are drawn are all new. -/
structure Fresh (fresh : ResultId → ResultId) (w : World) : Prop where
  injective : Function.Injective fresh
  tasks : ∀ id, w.task (fresh id) = none
  attempts : ∀ id, w.attemptOf (fresh id) = none

/-- No attempt row names it as its parent. -/
def World.childless (w : World) (id : ResultId) : Bool :=
  !w.attempts.any fun a => a.parentId = some id

theorem childless_iff : w.childless id = true ↔ ∀ a ∈ w.attempts, a.parentId ≠ some id := by
  simp [World.childless]

/-! ## One retry -/

/-- A task row with its attempt row. -/
abbrev Retry := TaskRow × TaskAttempt

/-- What `_decide` says of a row. -/
def World.decided (cfg : Settings) (cause : Cause) (w : World) (row : TaskRow) : Option Decision :=
  ((decideRetry cfg row cause).eval w).1

/-- The retry that `maybe_retry` enqueues for a row, where nothing stands in its way. -/
def World.retry (cfg : Settings) (fresh : ResultId → ResultId) (skew : Time) (cause : Cause)
    (w : World) (id : ResultId) : Option Retry :=
  (w.task id).bind fun row => (w.decided cfg cause row).map fun decision =>
    (retryTask row (fresh row.id) (w.clock + skew),
      retryAttempt row decision (fresh row.id) (w.clock + skew))

def World.add (w : World) (retries : List Retry) : World :=
  { w with
    tasks := w.tasks ++ retries.map Prod.fst
    attempts := w.attempts ++ retries.map Prod.snd }

theorem add_nil : w.add [] = w := by
  simp [World.add]

theorem add_add (retries more : List Retry) : (w.add retries).add more = w.add (retries ++ more) := by
  simp [World.add]

theorem eval_decideRetry (row : TaskRow) :
    (decideRetry cfg row cause).eval w = (w.decided cfg cause row, w) := by
  unfold World.decided decideRetry
  split
  · rfl
  · split <;> rfl

theorem decided_eq (hfailed : row.status = .failed) (hpath : row.exceptionClassPath ∉ bookkeepingPaths) :
    w.decided cfg cause row = judge cfg row cause (w.attemptInfo row.id) := by
  simp only [World.decided, decideRetry, hfailed, ne_eq, not_true_eq_false, if_false, if_neg hpath]
  rfl

theorem maybeRetry_of_none (h : w.retry cfg fresh skew cause id = none) :
    (maybeRetry cfg fresh skew id cause).eval w = (none, w) := by
  rw [maybeRetry, Prog.eval_read_bind]
  cases hrow : w.task id with
  | none => rfl
  | some row =>
    rw [World.retry, hrow, Option.bind_some, Option.map_eq_none_iff] at h
    simp only
    rw [Prog.eval_bind, eval_decideRetry, h]
    rfl

theorem retryRow_of_new {decision : Decision} {new : ResultId} (htask : w.task new = none)
    (hattempt : w.attemptOf new = none) (hfree : w.childless row.id = true) :
    retryRow row decision new skew w = some (w.add
      [(retryTask row new (w.clock + skew), retryAttempt row decision new (w.clock + skew))]) := by
  have hfirst : w.insertTask (retryTask row new (w.clock + skew)) =
      some { w with tasks := w.tasks ++ [retryTask row new (w.clock + skew)] } := by
    have hnew : (w.task (retryTask row new (w.clock + skew)).id).isSome = false := by
      rw [retryTask, htask]
      rfl
    rw [World.insertTask, if_neg (by simp [hnew])]
  have hnone : ¬((w.attemptOf new).isSome = true ∨ (some row.id).isSome = true ∧
      w.attempts.any (fun b => b.parentId = some row.id) = true) := by
    rw [hattempt]
    simpa [World.childless] using hfree
  rw [retryRow, hfirst]
  exact if_neg hnone

theorem maybeRetry_of_some
    (himport : ∀ row, w.task id = some row → cfg.importable row.spec.taskPath = true)
    {retry : Retry} (h : w.retry cfg fresh skew cause id = some retry) (htask : w.task (fresh id) = none)
    (hattempt : w.attemptOf (fresh id) = none) (hfree : w.childless id = true) :
    (maybeRetry cfg fresh skew id cause).eval w = (some (fresh id), w.add [retry]) := by
  rw [maybeRetry, Prog.eval_read_bind]
  cases hrow : w.task id with
  | none => simp [World.retry, hrow] at h
  | some row =>
    have hid := id_of_task hrow
    subst hid
    rw [World.retry, hrow, Option.bind_some, Option.map_eq_some_iff] at h
    obtain ⟨decision, hdecided, rfl⟩ := h
    simp only
    rw [Prog.eval_bind, eval_decideRetry, hdecided]
    simp only [himport row hrow, if_true]
    rw [Prog.eval_stmt_bind, Prog.eval_pure, World.atomic, retryRow_of_new htask hattempt hfree]
    rfl

/-! ## Retries one after the other -/

/-- What a retry is, whatever the decision. -/
theorem retry_spec {retry : Retry} (h : w.retry cfg fresh skew cause id = some retry) :
    retry.1.id = fresh id ∧ retry.1.retryOf = some id ∧ retry.1.status = .ready ∧
      retry.2.resultId = fresh id ∧ retry.2.parentId = some id := by
  obtain ⟨row, hrow, hretry⟩ := Option.bind_eq_some_iff.mp h
  obtain ⟨decision, -, rfl⟩ := Option.map_eq_some_iff.mp hretry
  have hid := id_of_task hrow
  subst hid
  exact ⟨rfl, rfl, rfl, rfl, rfl⟩

section add

variable {retry : Retry} {retries : List Retry}

theorem task_add (h : ∀ retry ∈ retries, retry.1.id ≠ id) : (w.add retries).task id = w.task id := by
  have hnone : (retries.map Prod.fst).find? (fun t => decide (t.id = id)) = none := by
    rw [List.find?_eq_none]
    intro t ht
    obtain ⟨retry, hretry, rfl⟩ := List.mem_map.mp ht
    simpa using h retry hretry
  rw [World.task, World.add, Table.get, List.find?_append, hnone, Option.or_none]
  rfl

theorem attemptOf_add (h : ∀ retry ∈ retries, retry.2.resultId ≠ id) :
    (w.add retries).attemptOf id = w.attemptOf id := by
  have hnone : (retries.map Prod.snd).find? (fun a => decide (a.resultId = id)) = none := by
    rw [List.find?_eq_none]
    intro a ha
    obtain ⟨retry, hretry, rfl⟩ := List.mem_map.mp ha
    simpa using h retry hretry
  rw [World.attemptOf, World.add, Table.get, List.find?_append, hnone, Option.or_none]
  rfl

theorem childless_add (h : ∀ retry ∈ retries, retry.2.parentId ≠ some id) :
    (w.add retries).childless id = w.childless id := by
  have hnone : (retries.map Prod.snd).any (fun a => a.parentId = some id) = false := by
    rw [List.any_map, List.any_eq_false]
    intro retry hretry
    simpa using h retry hretry
  rw [World.childless, World.childless, World.add, List.any_append, hnone, Bool.or_false]

/-- The decision on a row that was there does not depend on what is enqueued besides. -/
theorem retry_add (h : ∀ retry ∈ retries, retry.1.id ≠ id ∧ retry.2.resultId ≠ id) :
    (w.add retries).retry cfg fresh skew cause id = w.retry cfg fresh skew cause id := by
  rw [World.retry, World.retry, task_add fun retry hretry => (h retry hretry).1]
  cases hrow : w.task id with
  | none => rfl
  | some row =>
    have hid := id_of_task hrow
    subst hid
    have hinfo : (w.add retries).attemptInfo row.id = w.attemptInfo row.id := by
      rw [World.attemptInfo, World.attemptInfo,
        attemptOf_add fun retry hretry => (h retry hretry).2]
    have hdecided : (w.add retries).decided cfg cause row = w.decided cfg cause row := by
      by_cases hfailed : row.status = .failed
      · by_cases hpath : row.exceptionClassPath ∈ bookkeepingPaths
        · simp only [World.decided, decideRetry, hfailed, hpath, ne_eq, not_true_eq_false,
            if_false, if_true]
          rfl
        · rw [decided_eq hfailed hpath, decided_eq hfailed hpath, hinfo]
      · simp only [World.decided, decideRetry, ne_eq, hfailed, not_false_eq_true, if_true]
        rfl
    rw [Option.bind_some, Option.bind_some, hdecided]
    rfl

end add

/-- Rows that are there and have no child are retried as they are found, each for itself. -/
theorem eval_retries (hinjective : Function.Injective fresh) {ids : List ResultId}
    (himport : ∀ id ∈ ids, ∀ row, w.task id = some row → cfg.importable row.spec.taskPath = true)
    (hnodup : ids.Nodup)
    (hids : ∀ id ∈ ids, (w.task id).isSome = true ∧ w.childless id = true ∧
      w.task (fresh id) = none ∧ w.attemptOf (fresh id) = none) :
    (Prog.collect (fun id => maybeRetry cfg fresh skew id cause) ids).eval w =
      ((ids.filterMap (w.retry cfg fresh skew cause)).map fun retry => retry.1.id,
        w.add (ids.filterMap (w.retry cfg fresh skew cause))) := by
  induction ids generalizing w with
  | nil => simp [add_nil, Prog.collect, Prog.eval_pure]
  | cons id ids ih =>
    obtain ⟨hnotin, hnodup⟩ := List.nodup_cons.mp hnodup
    obtain ⟨⟨-, hfree, htask, hattempt⟩, hrest⟩ := List.forall_mem_cons.mp hids
    obtain ⟨himport, himports⟩ := List.forall_mem_cons.mp himport
    rw [Prog.eval_collect_cons]
    cases hretry : w.retry cfg fresh skew cause id with
    | none =>
      rw [maybeRetry_of_none hretry, List.filterMap_cons_none hretry]
      exact ih himports hnodup hrest
    | some retry =>
      obtain ⟨hid, -, -, hresult, hparent⟩ := retry_spec hretry
      rw [maybeRetry_of_some himport hretry htask hattempt hfree,
        List.filterMap_cons_some hretry]
      have hother : ∀ j ∈ ids, (∀ r ∈ [retry], r.1.id ≠ j ∧ r.2.resultId ≠ j) ∧
          (∀ r ∈ [retry], r.2.parentId ≠ some j) ∧
          ∀ r ∈ [retry], r.1.id ≠ fresh j ∧ r.2.resultId ≠ fresh j := by
        intro j hj
        obtain ⟨hsome, -⟩ := hrest j hj
        have hne : fresh id ≠ j := by
          rintro rfl
          rw [htask] at hsome
          cases hsome
        have hji : id ≠ j := fun h => hnotin (h ▸ hj)
        have hdrawn : fresh id ≠ fresh j := fun h => hji (hinjective h)
        simp only [List.mem_singleton, forall_eq, hid, hresult, hparent]
        exact ⟨⟨hne, hne⟩, fun h => hji (Option.some.inj h), hdrawn, hdrawn⟩
      have hsame : ids.filterMap ((w.add [retry]).retry cfg fresh skew cause) =
          ids.filterMap (w.retry cfg fresh skew cause) :=
        List.filterMap_congr fun j hj => retry_add (hother j hj).1
      have himports : ∀ j ∈ ids, ∀ row, (w.add [retry]).task j = some row →
          cfg.importable row.spec.taskPath = true := by
        intro j hj row hrow
        rw [task_add fun r hr => ((hother j hj).1 r hr).1] at hrow
        exact himports j hj row hrow
      have hlater := ih (w := w.add [retry]) himports hnodup fun j hj => by
        obtain ⟨hsome, hfree, htask, hattempt⟩ := hrest j hj
        obtain ⟨hids, hparents, hnew⟩ := hother j hj
        refine ⟨?_, ?_, ?_, ?_⟩
        · rw [task_add fun r hr => (hids r hr).1, hsome]
        · rw [childless_add hparents, hfree]
        · rw [task_add fun r hr => (hnew r hr).1, htask]
        · rw [attemptOf_add fun r hr => (hnew r hr).2, hattempt]
      rw [hlater, hsame, add_add, List.map_cons, hid]
      rfl

/-! ## The sweep -/

/-- The failure is recent, has no child, and `_decide` accepts it. -/
def World.missed (cfg : Settings) (now : Time) (w : World) (row : TaskRow) : Bool :=
  row.status = .failed &&
  row.finishedAt.any (fun finished => now - repairWindow ≤ finished && finished ≤ now - repairGrace) &&
  w.childless row.id && (w.decided cfg .failed row).isSome

/-- The policy of its task or a pinned budget allows more than one attempt. -/
def World.sought (cfg : Settings) (w : World) (row : TaskRow) : Bool :=
  1 < (policyFor cfg row.spec.taskPath).attempts cfg ||
    w.attempts.any fun a => a.maxAttempts.any (1 < ·) && a.resultId = row.id

/-- The recent failures that are sought, by the time at which they finished. -/
def World.queue (cfg : Settings) (now : Time) (w : World) : List TaskRow :=
  ((recentFailures now w).filter (w.sought cfg)).mergeSort fun t u =>
    t.finishedAt.getD 0 ≤ u.finishedAt.getD 0

/-- The row is sought, and fewer than `REPAIR_BATCH` rows are ahead of it. -/
def World.InTime (cfg : Settings) (now : Time) (w : World) (row : TaskRow) : Prop :=
  w.sought cfg row = true ∧
    ((w.queue cfg now).map TaskRow.id).idxOf row.id < repairBatch

instance (now : Time) (w : World) (row : TaskRow) : Decidable (w.InTime cfg now row) :=
  inferInstanceAs (Decidable (_ ∧ _))

/-- One pass that nothing interrupts. -/
def sweep (cfg : Settings) (fresh : ResultId → ResultId) (skew : Time) : Thread (List ResultId) :=
  repairMissedRetries cfg fresh (fun _ => none) skew

/-- One pass retries each missed failure once and nothing else, and leaves the next none. -/
def Repairs (cfg : Settings) (fresh : ResultId → ResultId) (skew : Time) (w : World) : Prop :=
  ∃ retries : List Retry,
    (sweep cfg fresh skew).eval w = (retries.map fun retry => retry.1.id, w.add retries) ∧
    (∀ retry ∈ retries, retry.1.status = .ready ∧ retry.1.id = retry.2.resultId ∧
      ∃ row ∈ w.tasks, retry.2.parentId = some row.id) ∧
    (∀ row ∈ w.tasks, retries.countP (fun retry => retry.2.parentId = some row.id) =
      if w.missed cfg (w.clock + skew) row then 1 else 0) ∧
    ∀ drawn, (sweep cfg drawn skew).eval (w.add retries) = ([], w.add retries)

section sweep

variable {now : Time}

theorem mem_recentFailures : row ∈ recentFailures now w ↔ row ∈ w.tasks ∧ row.status = .failed ∧
    row.finishedAt.any (fun finished => now - repairWindow ≤ finished && finished ≤ now - repairGrace)
      = true ∧ w.childless row.id = true ∧ row.exceptionClassPath ∉ bookkeepingPaths := by
  simp only [recentFailures, World.childless, List.mem_filter, Bool.and_eq_true, decide_eq_true_eq,
    and_assoc]

theorem recent_of_missed (hrow : row ∈ w.tasks) (h : w.missed cfg now row = true) :
    row ∈ recentFailures now w := by
  simp only [World.missed, Bool.and_eq_true, decide_eq_true_eq] at h
  obtain ⟨⟨⟨hfailed, hfinished⟩, hfree⟩, hdecided⟩ := h
  refine mem_recentFailures.mpr ⟨hrow, hfailed, hfinished, hfree, fun hpath => ?_⟩
  rw [World.decided, decideRetry, if_neg (not_not_intro hfailed), if_pos hpath] at hdecided
  cases hdecided

theorem missed_of_recent (h : row ∈ recentFailures now w) :
    w.missed cfg now row = (w.decided cfg .failed row).isSome := by
  obtain ⟨-, hfailed, hfinished, hfree, -⟩ := mem_recentFailures.mp h
  rw [World.missed, hfailed, hfinished, hfree]
  rfl

/-- The query `candidates` is the head of the queue. -/
theorem repairCandidates_eq : repairCandidates now
      (((recentFailures now w).map fun t => t.spec.taskPath).filter
        fun path => 1 < (policyFor cfg path).attempts cfg) w =
    ((w.queue cfg now).map TaskRow.id).take repairBatch := by
  have hsought : ∀ t ∈ recentFailures now w,
      (decide (t.spec.taskPath ∈ ((recentFailures now w).map fun t => t.spec.taskPath).filter
        fun path => 1 < (policyFor cfg path).attempts cfg) ||
      decide (t.id ∈ (w.attempts.filter fun a => a.maxAttempts.any (1 < ·)).map
        TaskAttempt.resultId)) = w.sought cfg t := by
    intro t ht
    have hpath : t.spec.taskPath ∈ (recentFailures now w).map fun t => t.spec.taskPath :=
      List.mem_map_of_mem ht
    rw [Bool.eq_iff_iff]
    simp [World.sought, List.mem_filter, hpath, and_assoc]
  rw [repairCandidates, World.queue, List.filter_congr hsought]

theorem mem_queue : row ∈ w.queue cfg now ↔
    row ∈ recentFailures now w ∧ w.sought cfg row = true := by
  rw [World.queue, List.mem_mergeSort, List.mem_filter]

theorem queue_unique (h : Unique TaskRow.id w.tasks) :
    ((w.queue cfg now).map TaskRow.id).Nodup := by
  have hperm := ((List.mergeSort_perm ((recentFailures now w).filter (w.sought cfg))
    fun t u => decide (t.finishedAt.getD 0 ≤ u.finishedAt.getD 0)).map TaskRow.id)
  refine hperm.nodup_iff.mpr (h.sublist ?_)
  exact (List.filter_sublist.trans List.filter_sublist).map TaskRow.id

/-- The retries of one pass. -/
def World.retries (cfg : Settings) (fresh : ResultId → ResultId) (skew : Time) (w : World) :
    List Retry :=
  (((w.queue cfg (w.clock + skew)).map TaskRow.id).take repairBatch).filterMap
    (w.retry cfg fresh skew .failed)

theorem sweep_eq : (sweep cfg fresh skew).eval w =
    (Prog.collect (fun id => maybeRetry cfg fresh skew id .failed)
      (((w.queue cfg (w.clock + skew)).map TaskRow.id).take repairBatch)).eval w := by
  rw [sweep, repairMissedRetries, timezoneNow, Prog.eval_read_bind, Prog.eval_read_bind,
    Prog.eval_read_bind, repairCandidates_eq]
  simp only [Prog.upTo_none_join]

/-- A row of the queue, by its id. -/
theorem task_of_queued (hunique : Unique TaskRow.id w.tasks)
    (h : id ∈ (w.queue cfg now).map TaskRow.id) :
    ∃ row ∈ recentFailures now w, row.id = id ∧ w.task id = some row := by
  obtain ⟨row, hrow, rfl⟩ := List.mem_map.mp h
  have hrecent := (mem_queue.mp hrow).1
  exact ⟨row, hrecent, rfl, get_of_mem hunique (mem_recentFailures.mp hrecent).1⟩

theorem eval_sweep (hunique : Unique TaskRow.id w.tasks) (hfresh : Fresh fresh w)
    (himport : ∀ row ∈ w.tasks, cfg.importable row.spec.taskPath = true) :
    (sweep cfg fresh skew).eval w = ((w.retries cfg fresh skew).map fun retry => retry.1.id,
      w.add (w.retries cfg fresh skew)) := by
  rw [sweep_eq]
  refine eval_retries hfresh.injective (fun id hid row hrow => himport row (get_mem hrow))
    ((queue_unique hunique).sublist (List.take_sublist _ _)) fun id hid => ?_
  obtain ⟨row, hrecent, rfl, hrow⟩ := task_of_queued hunique (List.mem_of_mem_take hid)
  exact ⟨by rw [hrow]; rfl, (mem_recentFailures.mp hrecent).2.2.2.1, hfresh.tasks row.id,
    hfresh.attempts row.id⟩

theorem retry_of_task (hrow : w.task row.id = some row) :
    (w.retry cfg fresh skew cause row.id).isSome = (w.decided cfg cause row).isSome := by
  rw [World.retry, hrow, Option.bind_some, Option.isSome_map]

/-- How often a pass retries a row. -/
theorem countP_retries (hunique : Unique TaskRow.id w.tasks) (hrow : row ∈ w.tasks) :
    (w.retries cfg fresh skew).countP (fun retry => retry.2.parentId = some row.id) =
      if row.id ∈ ((w.queue cfg (w.clock + skew)).map TaskRow.id).take repairBatch ∧
        (w.decided cfg .failed row).isSome = true then 1 else 0 := by
  have hretried : (w.retry cfg fresh skew .failed row.id).isSome =
      (w.decided cfg .failed row).isSome := retry_of_task (get_of_mem hunique hrow)
  have hnodup : (((w.queue cfg (w.clock + skew)).map TaskRow.id).take repairBatch).Nodup :=
    (queue_unique hunique).sublist (List.take_sublist _ _)
  rw [World.retries, List.countP_filterMap]
  cases hdecided : (w.decided cfg .failed row).isSome with
  | false =>
    rw [if_neg (by simp), List.countP_eq_zero]
    intro id _ hcount
    cases hretry : w.retry cfg fresh skew .failed id with
    | none => simp [hretry] at hcount
    | some retry =>
      obtain ⟨-, -, -, -, hparent⟩ := retry_spec hretry
      have hid : id = row.id := by simpa [hretry, hparent] using hcount
      rw [← hretried, ← hid, hretry] at hdecided
      cases hdecided
  | true =>
    have hrounds : ∀ id, ((w.retry cfg fresh skew .failed id).map
        fun retry => decide (retry.2.parentId = some row.id)).getD false = (id == row.id) := by
      intro id
      cases hretry : w.retry cfg fresh skew .failed id with
      | none =>
        have hid : id ≠ row.id := by
          rintro rfl
          rw [← hretried, hretry] at hdecided
          cases hdecided
        simp [hid]
      | some retry =>
        obtain ⟨-, -, -, -, hparent⟩ := retry_spec hretry
        simp [hparent, Bool.beq_eq_decide_eq]
    simp only [hrounds, and_true]
    exact hnodup.count

/-- Among the rows that the pass takes up are the recent failures that are in time. -/
theorem mem_batch (hunique : Unique TaskRow.id w.tasks) (hrow : row ∈ w.tasks) :
    row.id ∈ ((w.queue cfg now).map TaskRow.id).take repairBatch ↔
      row ∈ recentFailures now w ∧ w.InTime cfg now row := by
  constructor
  · intro hmem
    obtain ⟨row', hrow', hid⟩ := List.mem_map.mp (List.mem_of_mem_take hmem)
    have hqueued := mem_queue.mp hrow'
    have hsame : row' = row := by
      have hget := get_of_mem hunique (mem_recentFailures.mp hqueued.1).1
      rw [hid, get_of_mem hunique hrow] at hget
      exact (Option.some.inj hget).symm
    subst hsame
    exact ⟨hqueued.1, hqueued.2, (List.mem_take_iff_idxOf_lt (List.mem_map_of_mem hrow')).mp hmem⟩
  · rintro ⟨hrecent, hsought, hahead⟩
    have hqueued : row ∈ w.queue cfg now := mem_queue.mpr ⟨hrecent, hsought⟩
    exact (List.mem_take_iff_idxOf_lt (List.mem_map_of_mem hqueued)).mpr hahead

/-- A pass retries exactly the missed failures that are in time. -/
theorem countP_retries_of_missed (hunique : Unique TaskRow.id w.tasks) (hrow : row ∈ w.tasks) :
    (w.retries cfg fresh skew).countP (fun retry => retry.2.parentId = some row.id) =
      if w.missed cfg (w.clock + skew) row = true ∧ w.InTime cfg (w.clock + skew) row then 1
      else 0 := by
  rw [countP_retries hunique hrow]
  refine if_congr ?_ rfl rfl
  rw [mem_batch hunique hrow]
  constructor
  · rintro ⟨⟨hrecent, hahead⟩, hdecided⟩
    exact ⟨(missed_of_recent hrecent).trans hdecided, hahead⟩
  · rintro ⟨hmissed, hahead⟩
    have hrecent := recent_of_missed hrow hmissed
    exact ⟨⟨hrecent, hahead⟩, (missed_of_recent hrecent).symm.trans hmissed⟩

/-- Behind a pass that has retried all that was missed, there is nothing to retry. -/
theorem eval_sweep_again (hunique : Unique TaskRow.id w.tasks) (hfresh : Fresh fresh w)
    (hall : ∀ row ∈ w.tasks, w.missed cfg (w.clock + skew) row = true →
      w.InTime cfg (w.clock + skew) row) (drawn : ResultId → ResultId) :
    (sweep cfg drawn skew).eval (w.add (w.retries cfg fresh skew)) =
      ([], w.add (w.retries cfg fresh skew)) := by
  rw [sweep_eq]
  refine Prog.eval_collect_nothing fun id hid => maybeRetry_of_none ?_
  obtain ⟨row, hqueued, rfl⟩ := List.mem_map.mp (List.mem_of_mem_take hid)
  obtain ⟨hrow, hfailed, hfinished, hfree, hpath⟩ := mem_recentFailures.mp (mem_queue.mp hqueued).1
  have hnews : ∀ retry ∈ w.retries cfg fresh skew, retry.1.status = .ready ∧
      retry.2.parentId ≠ some row.id ∧ ∃ j, retry.1.id = fresh j ∧ retry.2.resultId = fresh j := by
    intro retry hretry
    obtain ⟨j, -, hj⟩ := List.mem_filterMap.mp hretry
    obtain ⟨hid, -, hready, hresult, -⟩ := retry_spec hj
    exact ⟨hready, childless_iff.mp hfree _ (List.mem_append_right _ (List.mem_map_of_mem hretry)),
      j, hid, hresult⟩
  have hold : row ∈ w.tasks := by
    rcases List.mem_append.mp hrow with hold | hnew
    · exact hold
    · obtain ⟨retry, hretry, rfl⟩ := List.mem_map.mp hnew
      rw [(hnews retry hretry).1] at hfailed
      cases hfailed
  have hget := get_of_mem hunique hold
  have hrecent : row ∈ recentFailures (w.clock + skew) w := by
    refine mem_recentFailures.mpr ⟨hold, hfailed, hfinished, ?_, hpath⟩
    rwa [childless_add fun retry hretry => (hnews retry hretry).2.1] at hfree
  have hkept : w.missed cfg (w.clock + skew) row = false := by
    by_contra hmissed
    rw [Bool.not_eq_false] at hmissed
    have hcount : (w.retries cfg fresh skew).countP
        (fun retry => retry.2.parentId = some row.id) = 1 := by
      rw [countP_retries_of_missed hunique hold, if_pos ⟨hmissed, hall row hold hmissed⟩]
    have hnone : (w.retries cfg fresh skew).countP
        (fun retry => retry.2.parentId = some row.id) = 0 := by
      rw [List.countP_eq_zero]
      intro retry hretry
      simpa using (hnews retry hretry).2.1
    rw [hnone] at hcount
    cases hcount
  rw [retry_add, ← Option.not_isSome_iff_eq_none, retry_of_task hget, ← missed_of_recent hrecent,
    hkept]
  · exact Bool.false_ne_true
  · intro retry hretry
    obtain ⟨-, -, j, hid, hresult⟩ := hnews retry hretry
    have hne : fresh j ≠ row.id := by
      intro heq
      have hnone := hfresh.tasks j
      rw [heq] at hnone
      exact Option.some_ne_none row (hget.symm.trans hnone)
    exact ⟨hid ▸ hne, hresult ▸ hne⟩

/-- What a pass repairs was in time. -/
theorem inTime_of_repairs (hunique : Unique TaskRow.id w.tasks) (hfresh : Fresh fresh w)
    (himport : ∀ row ∈ w.tasks, cfg.importable row.spec.taskPath = true)
    (h : Repairs cfg fresh skew w) (hrow : row ∈ w.tasks)
    (hmissed : w.missed cfg (w.clock + skew) row = true) : w.InTime cfg (w.clock + skew) row := by
  obtain ⟨retries, heval, -, hcount, -⟩ := h
  have hretries : retries.map Prod.snd = (w.retries cfg fresh skew).map Prod.snd := by
    rw [eval_sweep hunique hfresh himport] at heval
    exact (List.append_cancel_left (congrArg (fun r => r.2.attempts) heval)).symm
  have hcounts : ∀ l : List Retry, l.countP (fun retry => retry.2.parentId = some row.id) =
      (l.map Prod.snd).countP fun a => a.parentId = some row.id := by
    intro l
    rw [List.countP_map]
    rfl
  have hone := hcount row hrow
  rw [if_pos hmissed, hcounts, hretries, ← hcounts, countP_retries_of_missed hunique hrow] at hone
  by_contra hlate
  rw [if_neg fun h => hlate h.2] at hone
  cases hone

/-- A pass repairs what it should if and only if fewer than `REPAIR_BATCH` of the rows that its
query finds, retried or not, stand ahead of any missed failure. -/
theorem repairMissedRetries_repairs_iff (hunique : Unique TaskRow.id w.tasks)
    (hfresh : Fresh fresh w)
    (himport : ∀ row ∈ w.tasks, cfg.importable row.spec.taskPath = true) :
    Repairs cfg fresh skew w ↔ ∀ row ∈ w.tasks, w.missed cfg (w.clock + skew) row = true →
      w.InTime cfg (w.clock + skew) row := by
  constructor
  · exact fun h row hrow hmissed => inTime_of_repairs hunique hfresh himport h hrow hmissed
  · intro hall
    refine ⟨w.retries cfg fresh skew, eval_sweep hunique hfresh himport, ?_, fun row hrow => ?_,
      eval_sweep_again hunique hfresh hall⟩
    · intro retry hretry
      obtain ⟨id, hid, hretry⟩ := List.mem_filterMap.mp hretry
      obtain ⟨hnew, -, hready, hresult, hparent⟩ := retry_spec hretry
      obtain ⟨row, hrecent, rfl, -⟩ := task_of_queued hunique (List.mem_of_mem_take hid)
      exact ⟨hready, hnew.trans hresult.symm, row, (mem_recentFailures.mp hrecent).1, hparent⟩
    · rw [countP_retries_of_missed hunique hrow]
      exact if_congr (and_iff_left_of_imp (hall row hrow)) rfl rfl

/-! ### A full batch -/

/-- Two attempts, on `OSError` only. -/
def osErrorPolicy : Settings where
  policies _ := some { maxAttempts := some 2, retryOn := ["builtins.OSError".toList] }

/-- A failure at the time `finished`. -/
def failure (id : ResultId) (exceptionClassPath : String) (finished : Time) : TaskRow where
  id
  spec := ⟨[], [], 0, [], []⟩
  status := .failed
  exceptionClassPath := exceptionClassPath.toList
  workerIds := [[]]
  enqueuedAt := 0
  startedAt := some 0
  finishedAt := some finished

/-- One failure of each kind. -/
def mixed : World where
  tasks := [failure 0 "builtins.ValueError" 0, failure 1 "builtins.OSError" 1]
  clock := seconds 60

theorem mixed_queue : mixed.queue osErrorPolicy (mixed.clock + 0) = mixed.tasks := by
  rw [World.queue, List.mergeSort_of_pairwise (by decide)]
  decide

theorem mixed_repaired : Repairs osErrorPolicy (fun id => id + 2) 0 mixed := by
  have hfresh : Fresh (fun id => id + 2) mixed := by
    refine ⟨fun i j h => Nat.add_right_cancel h, fun id => ?_, fun id => rfl⟩
    have hids : ∀ row ∈ mixed.tasks, row.id < 2 := by decide
    exact get_eq_none_iff.mpr fun row hrow => ((hids row hrow).trans_le (Nat.le_add_left 2 id)).ne
  have hunique : Unique TaskRow.id mixed.tasks := by
    unfold Table.Unique
    decide
  refine (repairMissedRetries_repairs_iff hunique hfresh (by decide)).mpr ?_
  unfold World.InTime
  rw [mixed_queue]
  decide

/-- As many failures that are never retried as a batch has, and behind them one that would be. -/
def crowded : World where
  tasks := (List.range repairBatch).map (failure · "builtins.ValueError" 0) ++
    [failure repairBatch "builtins.OSError" 1]
  clock := seconds 60

theorem crowded_ids : crowded.tasks.map TaskRow.id = List.range (repairBatch + 1) := by
  rw [crowded, List.map_append, List.map_map, List.range_succ]
  exact congrArg (· ++ _) (List.map_id _)

theorem forall_crowded {p : TaskRow → Prop} (hstuck : ∀ i, p (failure i "builtins.ValueError" 0))
    (hlast : p (failure repairBatch "builtins.OSError" 1)) : ∀ row ∈ crowded.tasks, p row := by
  intro row hrow
  rcases List.mem_append.mp hrow with hrow | hrow
  · obtain ⟨i, -, rfl⟩ := List.mem_map.mp hrow
    exact hstuck i
  · rw [List.mem_singleton.mp hrow]
    exact hlast

theorem crowded_queue : crowded.queue osErrorPolicy (crowded.clock + 0) = crowded.tasks := by
  have hrecent : recentFailures (crowded.clock + 0) crowded = crowded.tasks :=
    List.filter_eq_self.mpr (forall_crowded (fun _ => rfl) rfl)
  have hsought : crowded.tasks.filter (crowded.sought osErrorPolicy) = crowded.tasks :=
    List.filter_eq_self.mpr (forall_crowded (fun _ => rfl) rfl)
  rw [World.queue, hrecent, hsought]
  refine List.mergeSort_of_pairwise (List.pairwise_append.mpr ⟨?_, List.pairwise_singleton _ _, ?_⟩)
  · exact List.pairwise_map.mpr (List.pairwise_of_forall fun _ _ => rfl)
  · intro row hrow last hlast
    obtain ⟨i, -, rfl⟩ := List.mem_map.mp hrow
    rw [List.mem_singleton.mp hlast]
    rfl

/-- The failure that would be retried waits behind the ones that never are. -/
theorem repairMissedRetries_misses_one :
    ((crowded.tasks.filter (crowded.missed osErrorPolicy (crowded.clock + 0))).length ≤ repairBatch ∧
      Unique TaskRow.id crowded.tasks ∧ Fresh (fun id => id + (repairBatch + 1)) crowded ∧
      ∀ row ∈ crowded.tasks, osErrorPolicy.importable row.spec.taskPath = true) ∧
    ¬Repairs osErrorPolicy (fun id => id + (repairBatch + 1)) 0 crowded := by
  have hunique : Unique TaskRow.id crowded.tasks := by
    rw [Table.Unique, crowded_ids]
    exact List.nodup_range
  have hfresh : Fresh (fun id => id + (repairBatch + 1)) crowded := by
    refine ⟨fun i j h => Nat.add_right_cancel h, fun id => ?_, fun id => rfl⟩
    refine get_eq_none_iff.mpr fun row hrow => ?_
    have hid : row.id ∈ crowded.tasks.map TaskRow.id := List.mem_map_of_mem hrow
    rw [crowded_ids, List.mem_range] at hid
    exact (hid.trans_le (Nat.le_add_left _ id)).ne
  have himport : ∀ row ∈ crowded.tasks, osErrorPolicy.importable row.spec.taskPath = true :=
    fun _ _ => rfl
  refine ⟨⟨?_, hunique, hfresh, himport⟩, fun h => ?_⟩
  · have hstuck : ((List.range repairBatch).map (failure · "builtins.ValueError" 0)).filter
        (crowded.missed osErrorPolicy (crowded.clock + 0)) = [] := by
      rw [List.filter_map, List.map_eq_nil_iff]
      exact List.filter_eq_nil_iff.mpr fun _ _ => Bool.false_ne_true
    rw [show crowded.tasks = _ ++ _ from rfl, List.filter_append, hstuck]
    decide
  · have hmem : failure repairBatch "builtins.OSError" 1 ∈ crowded.tasks :=
      List.mem_append_right _ (List.mem_singleton_self _)
    have hahead := (inTime_of_repairs hunique hfresh himport h hmem rfl).2
    have hlast : (failure repairBatch "builtins.OSError" 1).id ∈ List.range (repairBatch + 1) :=
      List.mem_range.mpr (Nat.lt_succ_self repairBatch)
    rw [crowded_queue, crowded_ids, ← List.mem_take_iff_idxOf_lt hlast, List.take_range,
      Nat.min_eq_left (Nat.le_succ repairBatch), List.mem_range] at hahead
    exact Nat.lt_irrefl _ hahead

end sweep

end CwStation.Tasks
