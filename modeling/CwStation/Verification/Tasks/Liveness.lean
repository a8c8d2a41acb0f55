import Mathlib.Data.List.Induction
import CwStation.Verification.Tasks.Programs

/-! # The reaper spares what lives

A row is declared lost only on what a pass has read of the incarnation that claimed it. Among
workers that beat in time no reading ever gives such evidence. -/

namespace CwStation.Tasks

open Table Threads

variable {cfg : Settings} {allowed : Pass → Prop} {w w' : World}

/-! ## Evidence -/

/-- What tables show against the claimant of a row, to a pass whose clock is ahead by `skew`. -/
def Evidence (cfg : Settings) (skew : Time) (w : World) (t : TaskRow) : Prop :=
  match w.heartbeat t.claimant with
  | some hb => hb.stoppedAt.isSome ∨ seconds cfg.lostAfterSeconds < w.clock - hb.lastSeenAt
  | none => t.startedAt.getD t.enqueuedAt < w.clock + skew - seconds cfg.orphanSeconds

theorem claimant_of_claim {t row : TaskRow} (h : t.claim = row.claim) :
    t.claimant = row.claimant := by
  rw [TaskRow.claimant, TaskRow.claimant, show t.workerIds = row.workerIds from congrArg Prod.fst h]

/-- The heartbeats of a reading are those of the tables it was taken from. -/
theorem reading_heartbeat (own : Str) (now : Time) {running : List TaskRow} {row : TaskRow}
    (hrow : row ∈ running) (hran : row.ran = true) :
    get WorkerHeartbeat.workerId (w.readHeartbeats own now running).1.heartbeats row.claimant =
      w.heartbeat row.claimant := by
  apply get_filter
  intro hb _ hkey
  rw [hkey, decide_eq_true_eq]
  exact List.mem_map_of_mem (List.mem_filter.mpr ⟨hrow, hran⟩)

theorem claimant_ne_own {row : TaskRow} {reading : Reading} (h : (reading.verdict cfg row).isSome)
    (hown : reading.own ≠ []) : row.claimant ≠ reading.own := by
  intro he
  rw [Reading.verdict, if_pos ⟨he ▸ hown, he⟩] at h
  cases h

/-- A verdict rests on evidence in the tables that were read. -/
theorem evidence_of_verdict {pass : Pass} {now : Time} {running : List TaskRow} {row : TaskRow}
    (hnow : now ≤ w.clock + pass.skew) (hrow : row ∈ running) (hran : row.ran = true)
    (h : ((w.readHeartbeats pass.own now running).1.verdict cfg row).isSome) :
    Evidence cfg pass.skew w row := by
  rw [Reading.verdict] at h
  split at h
  · cases h
  · rw [Option.isSome_map, reading_heartbeat pass.own now hrow hran] at h
    unfold Evidence
    cases hhb : w.heartbeat row.claimant with
    | some hb =>
      rw [hhb] at h
      simp only [lostReason] at h ⊢
      cases hstop : hb.stoppedAt with
      | some stoppedAt => exact .inl rfl
      | none =>
        rw [hstop] at h
        simp only at h
        split at h
        · rename_i hsilent
          exact .inr hsilent
        · cases h
    | none =>
      rw [hhb] at h
      simp only [lostReason] at h ⊢
      split at h
      · rename_i horphan
        have hclock : (w.readHeartbeats pass.own now running).1.now = now := rfl
        rw [hclock] at horphan
        linarith
      · cases h

theorem Evidence.of_claim {skew : Time} {t row : TaskRow} (h : Evidence cfg skew w row)
    (hclaim : t.claim = row.claim) : Evidence cfg skew w t := by
  have hstarted : t.startedAt = row.startedAt := congrArg (fun c => c.2.1) hclaim
  have henqueued : t.enqueuedAt = row.enqueuedAt := congrArg (fun c => c.2.2) hclaim
  rw [Evidence, claimant_of_claim hclaim, hstarted, henqueued]
  exact h

/-! ## Readings and verdicts along a change -/

/-- A reading is there already, or is taken from the tables as they are. -/
theorem Change.taken (h : Change cfg allowed w w') {reading : Reading}
    (hreading : reading ∈ w'.readings) : reading ∈ w.readings ∨
      ∃ pass now running, allowed pass ∧ now ≤ w.clock + pass.skew ∧ Claimed running w ∧
        reading = (w.readHeartbeats pass.own now running).1 := by
  cases h with
  | read pass now running hpass hnow hclaimed =>
    rcases List.mem_append.mp hreading with hold | hnew
    · exact .inl hold
    · exact .inr ⟨pass, now, running, hpass, hnow, hclaimed, List.mem_singleton.mp hnew⟩
  | retry row decision new skew hp hran hspec hinfo hbudget hinsert =>
    obtain ⟨-, -, -, rfl⟩ := retryRow_eq hinsert
    exact .inl hreading
  | pin id n now =>
    unfold World.pin at hreading
    split at hreading <;> exact .inl hreading
  | register =>
    unfold World.registerWorker at hreading
    split at hreading <;> exact .inl hreading
  | tick =>
    unfold World.tick at hreading
    split at hreading <;> exact .inl hreading
  | idle | enqueue | claim | finish | reap | cancel | mark | flag | beat | stop | lapse | prune =>
    exact .inl hreading

theorem lost_of_done {t : TaskRow} (h : t.done = true) : t.lost = false := by
  simp only [TaskRow.done, Bool.or_eq_true, Bool.and_eq_true, decide_eq_true_eq] at h
  rcases h with hs | ⟨hs, hpath⟩
  · simp [TaskRow.lost, hs]
  · simp [TaskRow.lost, hpath]

/-- Only the reaper declares a row lost, while it is running and on the verdict of a reading. -/
theorem Change.reaped (h : Change cfg allowed w w') {id : ResultId} {t t' : TaskRow}
    (ht : w.task id = some t) (hnot : t.lost = false) (ht' : w'.task id = some t')
    (hlost : t'.lost = true) : t.status = .running ∧ ∃ reading ∈ w.readings,
      t'.reapedOn = some reading.serial ∧ ∃ row ∈ reading.running, t.claim = row.claim ∧
        (reading.verdict cfg row).isSome := by
  have habsurd : ∀ {P : Prop}, w.task id = some t' → P := by
    intro P hsame
    rw [ht, Option.some.injEq] at hsame
    rw [hsame, hlost] at hnot
    cases hnot
  -- a row that is altered otherwise is not lost
  have halter : ∀ {P : Prop} {t₀ : TaskRow} {f : TaskRow → TaskRow}, (∀ t, (f t).id = t.id) →
      (∀ t, (f t).lost = false) → (w.alterTask t₀.id f).task id = some t' → P := by
    intro P t₀ f hf hkept hsome
    rw [task_alterTask hf] at hsome
    split at hsome
    · obtain ⟨u, -, rfl⟩ := Option.map_eq_some_iff.mp hsome
      rw [hkept u] at hlost
      cases hlost
    · exact habsurd hsome
  cases h with
  | reap now reading row ht₀ hrunning hreading hrow hclaim hverdict =>
    rw [task_alterTask (f := markLost reading.serial now) fun _ => rfl] at ht'
    split at ht'
    · rename_i hid
      rw [hid, ht₀, Option.some.injEq] at ht
      rw [ht₀, Option.map_some, Option.some.injEq] at ht'
      rw [← ht, ← ht']
      exact ⟨hrunning, reading, hreading, rfl, row, hrow, hclaim, hverdict⟩
    · exact habsurd ht'
  | claim worker now => exact halter (f := claimRow worker now) (fun _ => rfl) (fun _ => rfl) ht'
  | finish outcome now =>
    exact halter (f := finishRow outcome now) (fun _ => rfl)
      (fun u => lost_of_done (finishRow_done outcome now u)) ht'
  | cancel now =>
    have hpath : retrySupersededPath ≠ workerLostPath := by decide
    exact halter (f := supersede now) (fun _ => rfl)
      (fun u => by simp [TaskRow.lost, supersede, hpath]) ht'
  | enqueue u =>
    rw [World.task, get_append_of_some u ht, Option.some.injEq] at ht'
    exact habsurd (ht' ▸ ht)
  | retry row decision new skew hp hran hspec hinfo hbudget hinsert =>
    obtain ⟨-, -, -, rfl⟩ := retryRow_eq hinsert
    rw [World.task, get_append_of_some _ ht, Option.some.injEq] at ht'
    exact habsurd (ht' ▸ ht)
  | pin j n now =>
    unfold World.pin at ht'
    split at ht' <;> exact habsurd ht'
  | register =>
    unfold World.registerWorker at ht'
    split at ht' <;> exact habsurd ht'
  | tick =>
    unfold World.tick at ht'
    split at ht' <;> exact habsurd ht'
  | idle | mark | flag | beat | stop | lapse | read | prune => exact habsurd ht'

/-! ## Workers that beat in time -/

/-- A live worker has its row and beats in time, and no reading speaks against it. -/
structure Beating (cfg : Settings) (w : World) : Prop where
  seen : ∀ l ∈ w.live, ∃ hb, w.heartbeat l.1 = some hb ∧ hb.stoppedAt = none ∧ hb.lastSeenAt = l.2
  inTime : ∀ l ∈ w.live, w.clock ≤ l.2 + seconds cfg.lostAfterSeconds
  spared : ∀ l ∈ w.live, ∀ reading ∈ w.readings, ∀ row ∈ reading.running, row.claimant = l.1 →
    reading.verdict cfg row = none

/-- The rows of all readings were claimed as they still are. -/
def ReadingsClaimed (w : World) : Prop := ∀ reading ∈ w.readings, Claimed reading.running w

theorem stable_readingsClaimed : Stable (Step cfg allowed) ReadingsClaimed := by
  intro w w' h hstep reading hreading
  rcases hstep.2.taken hreading with hold | ⟨pass, now, running, -, -, hclaimed, hnew⟩
  · exact stable_claimed _ w w' (h reading hold) hstep
  · have hrunning : reading.running = running := by rw [hnew]; rfl
    rw [hrunning]
    exact stable_claimed running w w' hclaimed hstep

theorem Beating.frame (hb : Beating cfg w) (hbeats : w'.heartbeats = w.heartbeats)
    (hlive : ∀ l ∈ w'.live, l ∈ w.live) (hclock : w'.clock = w.clock)
    (hreadings : w'.readings = w.readings) : Beating cfg w' := by
  refine ⟨?_, ?_, ?_⟩
  · intro l hl
    rw [World.heartbeat, hbeats]
    exact hb.seen l (hlive l hl)
  · intro l hl
    rw [hclock]
    exact hb.inTime l (hlive l hl)
  · intro l hl
    rw [hreadings]
    exact hb.spared l (hlive l hl)

theorem Beating.tick (hb : Beating cfg w) (d : ℕ) : Beating cfg (w.tick cfg d) := by
  unfold World.tick
  split
  · rename_i hintime
    refine ⟨hb.seen, ?_, hb.spared⟩
    intro l hl
    simpa using List.all_eq_true.mp hintime l hl
  · exact hb

theorem Beating.beat (hpos : 0 ≤ cfg.lostAfterSeconds) (hb : Beating cfg w) (worker : Str) :
    Beating cfg (w.beat worker) := by
  have hnonneg : 0 ≤ seconds cfg.lostAfterSeconds := by
    rw [seconds]
    linarith
  have hentry : ∀ l ∈ (w.beat worker).live, ∃ l₀ ∈ w.live, l.1 = l₀.1 ∧
      l.2 = if l₀.1 = worker then w.clock else l₀.2 := by
    intro l hl
    obtain ⟨l₀, hl₀, he⟩ := mem_alter hl
    refine ⟨l₀, hl₀, ?_⟩
    rw [he]
    split <;> exact ⟨rfl, rfl⟩
  refine ⟨?_, ?_, ?_⟩
  · intro l hl
    obtain ⟨l₀, hl₀, hname, htime⟩ := hentry l hl
    obtain ⟨hb₀, hget, hstop, hseen⟩ := hb.seen l₀ hl₀
    have hget' : (w.beat worker).heartbeat l₀.1 = if l₀.1 = worker then
        (w.heartbeat worker).map (fun hb => { hb with lastSeenAt := w.clock })
      else w.heartbeat l₀.1 := get_alter fun _ => rfl
    rw [hname, hget', htime]
    by_cases hworker : l₀.1 = worker
    · rw [hworker] at hget
      rw [if_pos hworker, if_pos hworker, hget]
      exact ⟨_, rfl, hstop, rfl⟩
    · rw [if_neg hworker, if_neg hworker]
      exact ⟨hb₀, hget, hstop, hseen⟩
  · intro l hl
    obtain ⟨l₀, hl₀, -, htime⟩ := hentry l hl
    have hclock : (w.beat worker).clock = w.clock := rfl
    rw [htime, hclock]
    split
    · linarith
    · exact hb.inTime l₀ hl₀
  · intro l hl
    obtain ⟨l₀, hl₀, hname, -⟩ := hentry l hl
    rw [hname]
    exact hb.spared l₀ hl₀

theorem Beating.stop (hb : Beating cfg w) (worker : Str) : Beating cfg (w.markStopped worker) := by
  have hlive : ∀ l ∈ (w.markStopped worker).live, l ∈ w.live ∧ l.1 ≠ worker := by
    intro l hl
    simpa [World.markStopped, World.lapse] using hl
  refine ⟨?_, fun l hl => hb.inTime l (hlive l hl).1, fun l hl => hb.spared l (hlive l hl).1⟩
  intro l hl
  obtain ⟨hold, hne⟩ := hlive l hl
  obtain ⟨hb₀, hget, hstop, hseen⟩ := hb.seen l hold
  refine ⟨hb₀, ?_, hstop, hseen⟩
  have hget' : (w.markStopped worker).heartbeat l.1 = _ := get_alter fun _ => rfl
  rw [hget', if_neg hne]
  exact hget

theorem Beating.prune (hb : Beating cfg w) {cutoff : Time}
    (hcutoff : cutoff + seconds cfg.lostAfterSeconds ≤ w.clock) :
    Beating cfg (w.pruneHeartbeats cutoff).2 := by
  refine ⟨?_, hb.inTime, hb.spared⟩
  intro l hl
  obtain ⟨hb₀, hget, hstop, hseen⟩ := hb.seen l hl
  refine ⟨hb₀, get_filter_of_some hget ?_, hstop, hseen⟩
  have hintime := hb.inTime l hl
  have hkept : ¬ hb₀.lastSeenAt < cutoff := by
    rw [hseen]
    linarith
  simp [hstop, hkept]

theorem Beating.register (hpos : 0 ≤ cfg.lostAfterSeconds) (hb : Beating cfg w)
    (hread : ReadingsClaimed w) (worker : Str) : Beating cfg (w.registerWorker worker) := by
  have hnonneg : 0 ≤ seconds cfg.lostAfterSeconds := by
    rw [seconds]
    linarith
  unfold World.registerWorker
  split
  · rename_i hunused
    simp only [World.unused, Bool.and_eq_true, Option.isNone_iff_eq_none, List.all_eq_true,
      decide_eq_true_eq] at hunused
    obtain ⟨⟨hnone, -⟩, htasks⟩ := hunused
    -- whoever is new has claimed none of the rows that were read
    have hnew : ∀ reading ∈ w.readings, ∀ row ∈ reading.running, row.claimant ≠ worker := by
      intro reading hreading row hrow he
      obtain ⟨t, ht, hran, hclaim⟩ := hread reading hreading row hrow
      have hids : t.workerIds = row.workerIds := congrArg Prod.fst hclaim
      apply htasks t (get_mem ht)
      rw [hids, ← he]
      cases hlist : row.workerIds with
      | nil => simp [TaskRow.ran, hlist] at hran
      | cons x l =>
        rw [TaskRow.claimant, hlist, List.getLastD_cons]
        exact List.getLastD_mem_cons
    refine ⟨?_, ?_, ?_⟩
    · intro l hl
      rcases List.mem_append.mp hl with hold | hself
      · obtain ⟨hb₀, hget, hkept⟩ := hb.seen l hold
        exact ⟨hb₀, get_append_of_some _ hget, hkept⟩
      · rw [List.mem_singleton] at hself
        rw [hself]
        refine ⟨{ workerId := worker, lastSeenAt := w.clock }, ?_, rfl, rfl⟩
        have hget : get WorkerHeartbeat.workerId w.heartbeats worker = none := hnone
        rw [World.heartbeat, get_append, hget, Option.none_or, if_pos rfl]
    · intro l hl
      rcases List.mem_append.mp hl with hold | hself
      · exact hb.inTime l hold
      · rw [List.mem_singleton] at hself
        rw [hself]
        simpa using hnonneg
    · intro l hl
      rcases List.mem_append.mp hl with hold | hself
      · exact hb.spared l hold
      · rw [List.mem_singleton] at hself
        rw [hself]
        intro reading hreading row hrow he
        exact absurd he (hnew reading hreading row hrow)
  · exact hb

/-- A reading does not speak against a live worker. -/
theorem Beating.read (hb : Beating cfg w) (own : Str) (now : Time) {running : List TaskRow}
    (hclaimed : Claimed running w) : Beating cfg (w.readHeartbeats own now running).2 := by
  refine ⟨hb.seen, hb.inTime, ?_⟩
  intro l hl reading hreading row hrow he
  rcases List.mem_append.mp hreading with hold | hnew
  · exact hb.spared l hl reading hold row hrow he
  · rw [List.mem_singleton] at hnew
    subst hnew
    obtain ⟨-, -, hran, -⟩ := hclaimed row hrow
    obtain ⟨hb₀, hget, hstop, hseen⟩ := hb.seen l hl
    have hintime : w.clock ≤ l.2 + seconds cfg.lostAfterSeconds := hb.inTime l hl
    have hfresh : ¬ seconds cfg.lostAfterSeconds < w.clock - hb₀.lastSeenAt := by
      rw [hseen]
      linarith
    have hfound : get WorkerHeartbeat.workerId
        (w.readHeartbeats own now running).1.heartbeats row.claimant = some hb₀ := by
      rw [reading_heartbeat own now hrow hran, he, hget]
    have hreason : lostReason cfg row (some hb₀) w.clock now = none := by
      simp only [lostReason, hstop]
      exact if_neg hfresh
    change Reading.verdict cfg (w.readHeartbeats own now running).1 row = none
    unfold Reading.verdict
    split
    · rfl
    · simp only
      rw [hfound]
      exact Option.map_eq_none_iff.mpr hreason

theorem Beating.step (hpos : 0 ≤ cfg.lostAfterSeconds)
    (hallowed : ∀ pass, allowed pass →
      pass.skew + seconds cfg.lostAfterSeconds ≤ heartbeatRetention)
    (hb : Beating cfg w) (hread : ReadingsClaimed w) (h : Change cfg allowed w w') :
    Beating cfg w' := by
  cases h with
  | register label token => exact hb.register hpos hread _
  | beat worker => exact hb.beat hpos worker
  | stop worker => exact hb.stop worker
  | tick d => exact hb.tick d
  | read pass now running hpass hnow hclaimed => exact hb.read _ _ hclaimed
  | prune pass cutoff hpass hcutoff =>
    have hskew := hallowed pass hpass
    exact hb.prune (by linarith)
  | lapse worker => exact hb.frame rfl (fun l hl => List.mem_of_mem_filter hl) rfl rfl
  | pin id n now =>
    unfold World.pin
    split <;> exact hb.frame rfl (fun _ hl => hl) rfl rfl
  | retry row decision new skew hp hran hspec hinfo hbudget hinsert =>
    obtain ⟨-, -, -, rfl⟩ := retryRow_eq hinsert
    exact hb.frame rfl (fun _ hl => hl) rfl rfl
  | idle | enqueue | claim | finish | reap | cancel | mark | flag =>
    exact hb.frame rfl (fun _ hl => hl) rfl rfl

/-! ## Runs -/

/-- Every reading was taken by a pass from the tables as they were at some time of the run. -/
theorem readings_taken (cfg : Settings) (moves : List (Move Job)) :
    ∀ reading ∈ (runJobs cfg moves).state.readings, ∃ pass earlier later now,
      Move.start (Job.reap pass) ∈ moves ∧ moves = earlier ++ later ∧
      now ≤ (runJobs cfg earlier).state.clock + pass.skew ∧
      (∀ row ∈ reading.running, row.ran = true) ∧
      reading = ((runJobs cfg earlier).state.readHeartbeats pass.own now reading.running).1 := by
  induction moves using List.reverseRecOn with
  | nil =>
    intro reading hreading
    cases hreading
  | append_singleton moves move ih =>
    intro reading hreading
    have hold : reading ∈ (runJobs cfg moves).state.readings → ∃ pass earlier later now,
        Move.start (Job.reap pass) ∈ moves ++ [move] ∧ moves ++ [move] = earlier ++ later ∧
        now ≤ (runJobs cfg earlier).state.clock + pass.skew ∧
        (∀ row ∈ reading.running, row.ran = true) ∧
        reading = ((runJobs cfg earlier).state.readHeartbeats pass.own now reading.running).1 := by
      intro hmem
      obtain ⟨pass, earlier, later, now, hpass, hsplit, htaken⟩ := ih reading hmem
      refine ⟨pass, earlier, later ++ [move], now, List.mem_append_left _ hpass, ?_, htaken⟩
      rw [hsplit, List.append_assoc]
    have hmoves : ∀ job, Move.start job ∈ moves →
        job.Allowed fun pass => Move.start (Job.reap pass) ∈ moves := by
      intro job hjob
      cases job <;> trivial
    have hstable : Stable (Step cfg fun pass => Move.start (Job.reap pass) ∈ moves) Linked :=
      stable_linked
    rcases runJobs_moved hstable (fun _ h => h) linked_empty hmoves move with hsame | ⟨-, h⟩
    · rw [hsame] at hreading
      exact hold hreading
    · rcases h.taken hreading with hmem | ⟨pass, now, running, hpass, hnow, hclaimed, hnew⟩
      · exact hold hmem
      · have hrunning : reading.running = running := by rw [hnew]; rfl
        refine ⟨pass, moves, [move], now, List.mem_append_left _ hpass, rfl, hnow, ?_, ?_⟩
        · intro row hrow
          obtain ⟨-, -, hran, -⟩ := hclaimed row (hrunning ▸ hrow)
          exact hran
        · rw [hrunning]
          exact hnew

theorem beating_empty : Beating cfg {} := by
  refine ⟨?_, ?_, ?_⟩ <;> intro l hl <;> cases hl

theorem runJobs_beating (hpos : 0 ≤ cfg.lostAfterSeconds) {moves : List (Move Job)}
    (hskew : ∀ pass, Move.start (Job.reap pass) ∈ moves →
      pass.skew + seconds cfg.lostAfterSeconds ≤ heartbeatRetention) :
    Beating cfg (runJobs cfg moves).state := by
  have hstable : Stable (Step cfg fun pass =>
        pass.skew + seconds cfg.lostAfterSeconds ≤ heartbeatRetention)
      fun w => Linked w ∧ ReadingsClaimed w ∧ Beating cfg w := by
    rintro w w' ⟨hl, hread, hb⟩ hstep
    exact ⟨hl.step hstep.2, stable_readingsClaimed w w' hread hstep,
      hb.step hpos (fun _ h => h) hread hstep.2⟩
  have hempty : ReadingsClaimed {} := fun reading hreading => by cases hreading
  refine (runJobs_sound hstable (fun _ h => h.1) ⟨linked_empty, hempty, beating_empty⟩ ?_).state.2.2
  intro job hjob
  cases job <;> first | trivial | exact hskew _ hjob

/-- However the jobs interleave: a row that one more statement declares lost was running, and the
pass that does so has read evidence against the incarnation that claimed it, which is not its own;
a row that has ended otherwise never carries that verdict; and where no clock of a pass runs ahead
so far that it forgets heartbeats in time, no row of a live worker is declared lost. -/
theorem reaper_spares_live (cfg : Settings) (moves more : List (Move Job)) (move : Move Job) :
    let w := (runJobs cfg moves).state
    let next := (runJobs cfg (moves ++ [move])).state
    let w' := (runJobs cfg (moves ++ more)).state
    (∀ id t t', w.task id = some t → t.lost = false → next.task id = some t' → t'.lost = true →
      t.status = .running ∧ ∃ pass earlier later, ∃ reading ∈ w.readings,
        Move.start (Job.reap pass) ∈ moves ∧ moves = earlier ++ later ∧
        reading.own = pass.own ∧ reading.serial = (runJobs cfg earlier).state.readings.length ∧
        t'.reapedOn = some reading.serial ∧ t.claimant ≠ pass.own ∧
        Evidence cfg pass.skew (runJobs cfg earlier).state t) ∧
    (∀ id t, w.task id = some t → t.done = true →
      ∃ t', w'.task id = some t' ∧ t'.done = true ∧ t'.lost = false) ∧
    (0 ≤ cfg.lostAfterSeconds →
      (∀ pass, Move.start (Job.reap pass) ∈ moves →
        pass.skew + seconds cfg.lostAfterSeconds ≤ heartbeatRetention) →
      ∀ l ∈ w.live, ∀ id t t', w.task id = some t → t.claimant = l.1 → t.lost = false →
        next.task id = some t' → t'.lost = false) := by
  have hstable : Stable (Step cfg fun _ => True) Linked := stable_linked
  have hnext : (runJobs cfg (moves ++ [move])).state = (runJobs cfg moves).state ∨
      Step cfg (fun _ => True) (runJobs cfg moves).state (runJobs cfg (moves ++ [move])).state :=
    runJobs_moved hstable (fun _ h => h) linked_empty (fun job _ => job.allowed_true) move
  have hreaped : ∀ id t t', (runJobs cfg moves).state.task id = some t → t.lost = false →
      (runJobs cfg (moves ++ [move])).state.task id = some t' → t'.lost = true →
      t.status = .running ∧ ∃ reading ∈ (runJobs cfg moves).state.readings,
        t'.reapedOn = some reading.serial ∧ ∃ row ∈ reading.running, t.claim = row.claim ∧
          (reading.verdict cfg row).isSome := by
    intro id t t' ht hnot ht' hlost
    rcases hnext with hsame | ⟨-, h⟩
    · rw [hsame, ht, Option.some.injEq] at ht'
      rw [ht', hlost] at hnot
      cases hnot
    · exact h.reaped ht hnot ht' hlost
  refine ⟨?_, ?_, ?_⟩
  · intro id t t' ht hnot ht' hlost
    obtain ⟨hrunning, reading, hreading, hon, row, hrow, hclaim, hverdict⟩ :=
      hreaped id t t' ht hnot ht' hlost
    obtain ⟨pass, earlier, later, now, hpass, hsplit, hnow, hran, htaken⟩ :=
      readings_taken cfg moves reading hreading
    have hown : reading.own = pass.own := by rw [htaken]; rfl
    have hne : row.claimant ≠ reading.own :=
      claimant_ne_own hverdict (by rw [hown]; simp [Pass.own, newIncarnation])
    refine ⟨hrunning, pass, earlier, later, reading, hreading, hpass, hsplit, hown, ?_, hon, ?_, ?_⟩
    · rw [htaken]
      rfl
    · rw [claimant_of_claim hclaim, ← hown]
      exact hne
    · rw [htaken] at hverdict
      exact (evidence_of_verdict hnow hrow (hran row hrow) hverdict).of_claim hclaim
  · intro id t ht hdone
    have hkept : Done id (runJobs cfg (moves ++ more)).state :=
      runJobs_later hstable (fun _ h => h) linked_empty (fun job _ => job.allowed_true) stable_done
        ⟨t, ht, hdone⟩
    obtain ⟨t', ht', hdone'⟩ := hkept
    exact ⟨t', ht', hdone', lost_of_done hdone'⟩
  · intro hpos hskew l hl id t t' ht hclaimant hnot ht'
    by_contra hlost
    rw [Bool.not_eq_false] at hlost
    obtain ⟨-, reading, hreading, -, row, hrow, hclaim, hverdict⟩ :=
      hreaped id t t' ht hnot ht' hlost
    have hspared := (runJobs_beating hpos hskew).spared l hl reading hreading row hrow
      (by rw [← claimant_of_claim hclaim, hclaimant])
    rw [hspared] at hverdict
    cases hverdict

/-- A pass whose clock is eight days ahead forgets the heartbeat of a live worker, and the next
one takes its task for an orphan. -/
theorem live_task_reaped :
    let worker := newIncarnation "a".toList "1".toList
    let job : Work := ⟨worker, 0, 0, .successful, id, none, none⟩
    let pass : Pass := ⟨"b".toList, "2".toList, seconds (8 * 86400), id, id, fun _ => none,
      fun _ => none, false⟩
    let spec : TaskSpec := ⟨"apps.tasks.tasks.process_data_task".toList, "default".toList, 5,
      "default".toList, []⟩
    let moves : List (Move Job) :=
      [.start (.register "a".toList "1".toList), .run 0, .start (.enqueue 0 spec 0), .run 1,
        .start (.work job), .run 2, .run 2, .start (.register "b".toList "2".toList), .run 3,
        .start (.reap pass)] ++ List.replicate 9 (.run 4) ++
      [.start (.reap pass)] ++ List.replicate 3 (.run 5)
    let w := (runJobs {} moves).state
    let next := (runJobs {} (moves ++ [.run 5])).state
    (worker, w.clock) ∈ w.live ∧
      (w.task 0).any (fun t => t.status = .running && t.claimant = worker) = true ∧
      (next.task 0).any TaskRow.lost = true := by
  decide +kernel

end CwStation.Tasks
