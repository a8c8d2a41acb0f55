import CwStation.Library.Calendar
import CwStation.Verification.Scheduler.Ticks

/-! # Months that take too long -/

namespace CwStation.Scheduler

open Tasks (Time seconds)
open Scripts Calendar

/-- `relativedelta`, on a datetime in UTC. -/
def addRelative (unit : CalendarUnit) (count : ℕ) (t : Time) : Option Time :=
  let day := (t - minTime).toNat / 86400000000
  let rest := (t - minTime).toNat % 86400000000
  let months := match unit with
    | .months => count
    | .years => 12 * count
  inRange (minTime + (addMonths months day * 86400000000 + rest : ℕ))

/-- A process that knows UTC only, with the cron expression of every minute. -/
def gregorian : Libraries where
  unicode := .ascii
  tzCanonical name := if name = "utc".toList then some "UTC".toList else none
  currentTimezone := "UTC".toList
  addCalendar := addRelative
  zone _ := { add := fun t delta => inRange (t + delta), addCalendar := addRelative }
  cronNext _ _ t := .ok ((t / seconds 60 + 1) * seconds 60)

theorem gregorian_forward : gregorian.Forward := by
  refine ⟨?_, ?_⟩
  · intro unit count t t' hcount h
    have hlater : ∀ months, 0 < months → t < minTime +
        (addMonths months ((t - minTime).toNat / 86400000000) * 86400000000 +
          (t - minTime).toNat % 86400000000 : ℕ) := by
      intro months hmonths
      have hday := lt_addMonths hmonths ((t - minTime).toNat / 86400000000)
      have hsplit := Nat.div_add_mod (t - minTime).toNat 86400000000
      unfold Time at *
      omega
    cases unit with
    | months =>
      rw [inRange_eq h]
      exact hlater count hcount
    | years =>
      rw [inRange_eq h]
      exact hlater (12 * count) (by omega)
  · intro expr tz t t' h
    cases h
    exact Int.lt_ediv_add_one_mul_self t (by decide)

/-- The first moment of a month. -/
def monthInstant (month : ℕ) : Time := minTime + (monthStart month * 86400000000 : ℕ)

theorem monthInstant_le {month month' : ℕ} (h : month ≤ month') :
    monthInstant month ≤ monthInstant month' := by
  have := monthStart_strictMono.monotone h
  unfold monthInstant Time
  omega

theorem addRelative_monthInstant {month : ℕ} (h : month < 100000) :
    addRelative .months 1 (monthInstant month) = some (monthInstant (month + 1)) := by
  have hsince : (monthInstant month - minTime).toNat = monthStart month * 86400000000 := by
    rw [monthInstant, add_sub_cancel_left, Int.toNat_natCast]
  have hbound := monthStart_le (month + 1)
  simp only [addRelative, hsince, Nat.mul_div_cancel _ (by decide : 0 < 86400000000),
    Nat.mul_mod_left, addMonths_monthStart, Nat.add_zero]
  rw [inRange, if_pos]
  · rfl
  · unfold minTime maxTime Time
    omega

/-- A monthly loop that does not pass `after` ends in its last month. -/
theorem walk_months {after : Time} {month n : ℕ} (hmonth : month + n ≤ 100000)
    (hafter : monthInstant (month + n) ≤ after) :
    walk (addRelative .months 1) after n (monthInstant month) = .ok (monthInstant (month + n)) := by
  apply walk_eq_iterate fun k => monthInstant (month + k)
  · intro k hk
    exact addRelative_monthInstant (by omega)
  · intro k hk
    exact le_trans (monthInstant_le (by omega)) hafter

/-- Monthly, anchored in January of the year 1026. -/
def monthly : Cadence where
  scheduleType := .interval
  intervalSpec := "1mo".toList
  anchorAt := some (monthInstant 12300)

/-- Where the loop of `monthly` ends: in May of 1859. -/
def stuckAt : Time := monthInstant (12300 + maxSteps)

/-- March of 2026. -/
def march : Time := monthInstant 24302

theorem stuckAt_le_march : stuckAt ≤ march := monthInstant_le (by decide)

theorem nextRun_monthly : nextRun gregorian gregorian.utc monthly march = .ok (some stuckAt) := by
  have hspec : parseInterval gregorian monthly.intervalSpec = .ok (.calendar .months 1) := by rfl
  have hwalk : walk (gregorian.utc.addCalendar .months 1) march maxSteps (monthInstant 12300) =
      .ok stuckAt := walk_months (by decide) stuckAt_le_march
  have hstep := (stepInterval_calendar hspec).trans hwalk
  exact (nextRun_anchored rfl (by decide) rfl).trans (congrArg (Except.map some) hstep)

/-! ### Two ticks -/

/-- A queue that takes every task, or none; what it takes is unknown to the reports. -/
def queueing (result : Except EnqueueError Tasks.ResultId) : Engine Unit where
  lib := gregorian
  enqueue _ _ := (result, ())
  status _ _ := none

/-- Two ticks read a job that is due, and the queue refuses the task of the one that wins. -/
theorem two_ticks_fire_once :
    let s : Store Unit := {
      clock := march, world := (), jobs := [{
        pk := 1, name := "beat".toList, taskPath := "apps.tasks.beat".toList, nextRunAt := some 0
        cadence := { scheduleType := .interval, intervalSpec := "5m".toList, anchorAt := some 0 } }] }
    FiresOnce s (runTicks (queueing (.error (.other []))) s [
      .start ⟨.tick (some 1), rfl⟩, .start ⟨.tick (some 2), rfl⟩, .turn 0, .turn 1, .turn 0, .turn 1,
      .turn 0, .turn 0, .turn 0, .turn 0]) :=
  ticks_fire_once _ gregorian_forward _ _ (by decide +kernel)

/-- A cursor that does not pass the tick is claimed by the next tick again. -/
theorem claims_again {ω : Type} (engine : Engine ω) (job : ScheduledJob) {due now clock : Time}
    {world : ω} (henabled : job.enabled = true) (hdue : job.nextRunAt = some due) (hle : due ≤ now)
    (hrun : nextRun engine.lib engine.lib.utc job.cadence now = .ok (some due)) :
    ((runTicks engine { clock, jobs := [job], world }
      [.start ⟨.tick (some now), rfl⟩, .turn 0, .turn 0,
        .start ⟨.tick (some now), rfl⟩, .turn 1, .turn 1]).history.countP
      fun e => claimed e.2 = some (job.pk, due)) = 2 := by
  simp [runTicks, Session.run, Session.step, Beat.script, Job.script, runDueJobs, processDue, perform,
    Script.perform, bind, Script.bind, exec, Store.due, henabled, hdue, hle, processJobs,
    processJobBody, hrun, Store.job, Table.get, Store.alter, Table.alter, claimed]

/-- A report that is monthly since the year 1026, at the cursor that its last tick has left. -/
def monthlyReport : ScheduledJob where
  pk := 1
  name := "report".toList
  taskPath := "apps.tasks.report".toList
  cadence := monthly
  nextRunAt := some stuckAt

/-- Ticks fire the monthly report again and again. -/
theorem monthly_fires_again :
    ¬ ∀ (engine : Engine Unit), engine.lib.Forward → ∀ (s : Store Unit) (moves : List (Move Beat)),
      FiresOnce s (runTicks engine s moves) := by
  intro h
  have hfires := h (queueing (.ok 7)) gregorian_forward
    { clock := march, jobs := [monthlyReport], world := () }
    [.start ⟨.tick (some march), rfl⟩, .turn 0, .turn 0,
      .start ⟨.tick (some march), rfl⟩, .turn 1, .turn 1]
  have honce := hfires.once (monthlyReport.pk, stuckAt)
  rw [claims_again (queueing (.ok 7)) monthlyReport rfl rfl stuckAt_le_march nextRun_monthly] at honce
  exact absurd honce (by decide)

end CwStation.Scheduler
