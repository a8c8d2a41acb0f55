import CwStation.Verification.Scheduler.Periods

/-! # Cadences out of bounds -/

namespace CwStation.Scheduler

open Tasks (Time seconds)
open Scripts

variable {lib : Libraries} {arith : Arithmetic} {c : Cadence} {add : Time → Option Time}
  {spec : Str} {after t : Time} {n : ℕ} {e : Failure}

/-! ## Specs -/

/-- The white space and the digits of a spec, and what follows. -/
def specDigits (lib : Libraries) (spec : Str) : Str :=
  (lstrip spec).takeWhile fun c => (lib.unicode.decimal c).isSome

def specUnit (lib : Libraries) (spec : Str) : Option (IntervalUnit × Str) :=
  intervalUnit (lstrip ((lstrip spec).dropWhile fun c => (lib.unicode.decimal c).isSome))

/-- `_INTERVAL_RE` matches the spec, with that unit. -/
def SpecMatches (lib : Libraries) (spec : Str) (unit : IntervalUnit) : Prop :=
  ∃ rest, specUnit lib spec = some (unit, rest) ∧ specDigits lib spec ≠ [] ∧ lstrip rest = []

/-- So many units are a `timedelta` or a `relativedelta`. -/
def IntervalUnit.Fits (unit : IntervalUnit) (count : ℕ) : Prop :=
  match unit with
  | .fixed length => length * count ≤ maxDelta
  | .calendar _ => True
  | .longS => False

/-- What the expression lets through is a number that `int` converts, and no overflow. -/
def SpecInBounds (lib : Libraries) (spec : Str) : Prop :=
  ∀ unit, SpecMatches lib spec unit → (specDigits lib spec).length ≤ maxStrDigits ∧
    ∀ count, intDigits lib.unicode false 0 (specDigits lib spec) = some count → count ≠ 0 →
      unit.Fits count

/-- What `parseInterval` does with a spec that matches. -/
def convert (lib : Libraries) (digits : Str) (unit : IntervalUnit) : Except Failure IntervalDelta :=
  if digits.length > maxStrDigits then .error .uncaught
  else match intDigits lib.unicode false 0 digits with
    | none => .error .config
    | some count =>
        if count = 0 then .error .config
        else match unit with
          | .fixed length =>
              if length * count ≤ maxDelta then .ok (.fixed (length * count)) else .error .uncaught
          | .calendar unit => .ok (.calendar unit count)
          | .longS => .error .uncaught

theorem parseInterval_of_matches {unit : IntervalUnit} (h : SpecMatches lib spec unit) :
    parseInterval lib spec = convert lib (specDigits lib spec) unit := by
  obtain ⟨rest, hunit, hdigits, hrest⟩ := h
  unfold parseInterval
  dsimp only
  rw [← specDigits, ← specUnit, hunit]
  exact if_neg (by simp [hdigits, hrest])

theorem parseInterval_of_not_matches (h : ∀ unit, ¬SpecMatches lib spec unit) :
    parseInterval lib spec = .error .config := by
  unfold parseInterval
  dsimp only
  rw [← specDigits, ← specUnit]
  cases hunit : specUnit lib spec with
  | none => rfl
  | some pair =>
    refine if_pos ?_
    by_contra hmatch
    push Not at hmatch
    exact h pair.1 ⟨pair.2, hunit, hmatch⟩

theorem convert_ne_uncaught_iff {digits : Str} {unit : IntervalUnit} :
    convert lib digits unit ≠ .error .uncaught ↔ digits.length ≤ maxStrDigits ∧
      ∀ count, intDigits lib.unicode false 0 digits = some count → count ≠ 0 → unit.Fits count := by
  unfold convert
  by_cases hlong : digits.length > maxStrDigits
  · simp [hlong, not_le.mpr hlong]
  · rw [if_neg hlong]
    cases hcount : intDigits lib.unicode false 0 digits with
    | none => simp [not_lt.mp hlong]
    | some count =>
      simp only [not_lt.mp hlong, true_and, Option.some.injEq, forall_eq']
      by_cases hzero : count = 0
      · simp [hzero]
      · rw [if_neg hzero]
        cases unit with
        | fixed length => by_cases hfits : length * count ≤ maxDelta <;>
            simp [IntervalUnit.Fits, hzero, hfits]
        | calendar unit => simp [IntervalUnit.Fits]
        | longS => simp [IntervalUnit.Fits, hzero]

theorem SpecMatches.unique {unit unit' : IntervalUnit} (h : SpecMatches lib spec unit)
    (h' : SpecMatches lib spec unit') : unit' = unit := by
  obtain ⟨rest, hunit, -⟩ := h
  obtain ⟨rest', hunit', -⟩ := h'
  rw [hunit] at hunit'
  cases hunit'
  rfl

theorem parseInterval_ne_uncaught_iff :
    parseInterval lib spec ≠ .error .uncaught ↔ SpecInBounds lib spec := by
  by_cases hmatch : ∃ unit, SpecMatches lib spec unit
  · obtain ⟨unit, hunit⟩ := hmatch
    rw [parseInterval_of_matches hunit, convert_ne_uncaught_iff]
    constructor
    · intro h unit' hunit'
      rw [hunit.unique hunit']
      exact h
    · exact fun h => h unit hunit
  · have hnone : ∀ unit, ¬SpecMatches lib spec unit := fun unit hunit => hmatch ⟨unit, hunit⟩
    rw [parseInterval_of_not_matches hnone]
    exact iff_of_true (by simp) fun unit hunit => absurd hunit (hnone unit)

/-! ## Additions -/

/-- The loop finds every period that it needs: up to the first one behind `after`, or all of them. -/
def stays (add : Time → Option Time) (after : Time) : ℕ → Time → Bool
  | 0, _ => true
  | n + 1, t => after < t || (add t).any fun t => stays add after n t

theorem walk_ne_uncaught_iff :
    walk add after n t ≠ .error .uncaught ↔ stays add after n t = true := by
  induction n generalizing t with
  | zero => simp [walk, stays]
  | succ n ih =>
    unfold walk stays
    by_cases hlt : after < t
    · simp [hlt]
    · cases hadd : add t with
      | none => simp [hlt]
      | some t' => simp [hlt, ih]

/-- Behind `after` there is a point of the cadence in range, and the additions on the way to it are
in range. -/
def IntervalDelta.InBounds (delta : IntervalDelta) (arith : Arithmetic) (anchor after : Time) : Prop :=
  match delta with
  | .fixed length =>
      after < anchor ∨ (arith.add anchor (((after - anchor) / length + 1) * length)).isSome = true
  | .calendar unit count => stays (arith.addCalendar unit count) after maxSteps anchor = true

theorem stepInterval_ne_uncaught_iff {delta : IntervalDelta} {anchor : Time}
    (hspec : parseInterval lib spec = .ok delta) :
    stepInterval lib arith anchor spec after ≠ .error .uncaught ↔
      delta.InBounds arith anchor after := by
  cases delta with
  | calendar unit count =>
    rw [stepInterval_calendar hspec]
    exact walk_ne_uncaught_iff
  | fixed length =>
    simp only [stepInterval, hspec, bind, Except.bind, IntervalDelta.InBounds]
    by_cases hlt : after < anchor
    · simp [hlt, pure, Except.pure]
    · cases arith.add anchor (((after - anchor) / length + 1) * length) <;>
        simp [hlt, pure, Except.pure, throw, throwThe, MonadExceptOf.throw]

/-! ## Who computes the next run -/

/-- The spec is in bounds, and so are the additions from the anchor, or from `after` without one. -/
def Cadence.InBounds (lib : Libraries) (arith : Arithmetic) (c : Cadence) (after : Time) : Prop :=
  SpecInBounds lib c.intervalSpec ∧ ∀ delta, parseInterval lib c.intervalSpec = .ok delta →
    match c.anchorAt with
    | none => delta.InBounds lib.utc after after
    | some anchor => delta.InBounds arith anchor after

/-- Nothing but a `ScheduleConfigError` escapes, `clean` and `save` see each bad cadence as such, and
so does a tick, which computes in UTC. -/
structure RejectsCleanly (lib : Libraries) (arith : Arithmetic) (c : Cadence) (after : Time) :
    Prop where
  parse : parseInterval lib c.intervalSpec ≠ .error .uncaught
  next : nextRun lib arith c after ≠ .error .uncaught
  clean : ∀ e, nextRun lib arith c after = .error e → ∀ queues queueName, ∃ field,
    cleanJob lib arith queues queueName c after = .error (.validation field)
  save : arith = lib.zone lib.currentTimezone → ∀ e, nextRun lib arith c after = .error e →
    ∀ {ω : Type} (engine : Engine ω) (s : Store ω) (loaded job : ScheduledJob), s.clock = after →
      job.cadence = c → job.enabled = true → job.nextRunAt = none →
      (storeJob lib loaded job).eval (exec engine) s = (.ok job, s.alter job.pk fun _ => job)
  tick : arith = lib.utc → ∀ e, nextRun lib arith c after = .error e →
    ∀ {ω : Type} (engine : Engine ω) (s : Store ω) (job : ScheduledJob), engine.lib = lib →
      job.cadence = c → job.nextRunAt.isSome = true →
      (processJobBody engine job after).eval (exec engine) s = ({ errors := 1 },
        s.alter job.pk fun row => { row with enabled := false, lastStatus := .invalid })

theorem step_ne_uncaught_iff (hparse : parseInterval lib spec ≠ .error .uncaught) {anchor : Time} :
    stepInterval lib arith anchor spec after ≠ .error .uncaught ↔
      ∀ delta, parseInterval lib spec = .ok delta → delta.InBounds arith anchor after := by
  cases hspec : parseInterval lib spec with
  | ok delta =>
    rw [stepInterval_ne_uncaught_iff hspec]
    simp
  | error e =>
    cases e with
    | uncaught => exact absurd hspec hparse
    | config => simp [stepInterval, hspec, bind, Except.bind]

theorem map_some_ne_uncaught {x : Except Failure Time} :
    x.map some ≠ .error .uncaught ↔ x ≠ .error .uncaught := by
  cases x <;> simp [Except.map]

theorem nextRun_ne_uncaught_iff (htype : c.scheduleType = .interval) :
    parseInterval lib c.intervalSpec ≠ .error .uncaught ∧ nextRun lib arith c after ≠ .error .uncaught ↔
      c.InBounds lib arith after := by
  rw [Cadence.InBounds, ← parseInterval_ne_uncaught_iff]
  refine and_congr_right fun hparse => ?_
  by_cases hnil : c.intervalSpec = []
  · have hconfig : parseInterval lib c.intervalSpec = .error .config := by
      rw [hnil]
      rfl
    simp only [hconfig, reduceCtorEq, false_imp_iff, implies_true, iff_true]
    simp [nextRun, htype, hnil]
  · cases hanchor : c.anchorAt with
    | none =>
      simp only [nextRun, htype, if_neg hnil, hanchor]
      rw [map_some_ne_uncaught, step_ne_uncaught_iff hparse]
    | some anchor =>
      simp only [nextRun, htype, if_neg hnil, hanchor]
      rw [map_some_ne_uncaught, step_ne_uncaught_iff hparse]

theorem error_config (hnext : nextRun lib arith c after ≠ .error .uncaught)
    (h : nextRun lib arith c after = .error e) : nextRun lib arith c after = .error .config := by
  cases e with
  | config => exact h
  | uncaught => exact absurd h hnext

theorem cleanJob_of_config (htype : c.scheduleType = .interval)
    (h : nextRun lib arith c after = .error .config) (queues : List Str) (queueName : Str) :
    ∃ field, cleanJob lib arith queues queueName c after = .error (.validation field) := by
  have hzone : nextRun lib arith
      { c with timezone := (canonicalTimezone lib c.timezone).getD c.timezone } after =
        .error .config := by
    rw [← h]
    simp only [nextRun, htype]
  have hrequired : c.required = some ("interval_spec".toList, decide (c.intervalSpec ≠ [])) := by
    simp [Cadence.required, htype]
  unfold cleanJob
  rw [hrequired]
  simp only [hzone]
  split
  · exact ⟨_, rfl⟩
  · split <;> exact ⟨_, rfl⟩

theorem eval_storeJob_unscheduled {ω : Type} (engine : Engine ω) {s : Store ω} {loaded job : ScheduledJob}
    (h : nextRun lib (lib.zone lib.currentTimezone) job.cadence s.clock = .error .config)
    (henabled : job.enabled = true) (hnone : job.nextRunAt = none) :
    (storeJob lib loaded job).eval (exec engine) s = (.ok job, s.alter job.pk fun _ => job) := by
  have hjob : { job with nextRunAt := none } = job := by
    rw [← hnone]
  have hseeds : ∀ changed, (job.enabled && (job.nextRunAt.isNone || changed)) = true := by
    simp [henabled, hnone]
  unfold storeJob perform
  rw [Script.eval_perform_bind]
  simp only [hseeds, if_true]
  rw [Script.eval_perform_bind]
  simp only [exec, h]
  rw [Script.eval_perform_bind, hjob]
  rfl

theorem eval_processJobBody {ω : Type} (engine : Engine ω) {s : Store ω} {job : ScheduledJob}
    (h : nextRun engine.lib engine.lib.utc job.cadence after = .error .config)
    (hsome : job.nextRunAt.isSome = true) :
    (processJobBody engine job after).eval (exec engine) s = ({ errors := 1 },
      s.alter job.pk fun row => { row with enabled := false, lastStatus := .invalid }) := by
  obtain ⟨observed, hobserved⟩ := Option.isSome_iff_exists.mp hsome
  unfold processJobBody perform
  rw [hobserved]
  simp only [h]
  rw [Script.eval_perform_bind]
  rfl

end CwStation.Scheduler
