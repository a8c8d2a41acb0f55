import CwStation.Verification.Scheduler.Periods

/-! # What the catch-up policy counts -/

namespace CwStation.Scheduler

open Tasks (Time seconds)

variable {lib : Libraries} {c : Cadence} {add : Time → Option Time} {anchor now scheduledFor t : Time}
  {j n : ℕ}

/-- How often the next run can be taken from `t` on without passing `now`, up to a bound. -/
def iterated (lib : Libraries) (c : Cadence) (now : Time) : ℕ → Time → ℕ
  | 0, _ => 0
  | n + 1, t =>
      match nextRun lib lib.utc c t with
      | .ok (some next) => if now < next then 0 else iterated lib c now n next + 1
      | _ => 0

/-- Some next run is that instant. -/
def FireTime (lib : Libraries) (c : Cadence) (t : Time) : Prop :=
  ∃ after, nextRun lib lib.utc c after = .ok (some t)

def Cadence.isFixed (lib : Libraries) (c : Cadence) : Bool :=
  match c.scheduleType, parseInterval lib c.intervalSpec with
  | .interval, .ok (.fixed _) => true
  | _, _ => false

/-- The count is how often the next run can be taken, up to ten thousand where it is counted step by
step; it is positive just where a later run is due. -/
structure Matches (lib : Libraries) (c : Cadence) (scheduledFor now : Time) (n : ℕ) : Prop where
  count : ∀ bound, (c.isFixed lib = true ∨ bound = maxSteps) →
    iterated lib c now bound scheduledFor = min bound n
  capped : c.isFixed lib = false → n ≤ maxSteps
  skips : 1 ≤ n ↔ ∃ t, nextRun lib lib.utc c scheduledFor = .ok (some t) ∧ t ≤ now

/-! ## Steps -/

/-- The periods behind `t` are defined until one passes `now`, as far as they are counted. -/
def defined (step : Time → Except Failure Time) (now : Time) : ℕ → Time → Bool
  | 0, _ => true
  | n + 1, t =>
      match step t with
      | .ok next => now < next || defined step now n next
      | .error _ => false

/-- How many periods behind `t` do not pass `now`. -/
def counted (step : Time → Except Failure Time) (now : Time) : ℕ → Time → ℕ
  | 0, _ => 0
  | n + 1, t =>
      match step t with
      | .ok next => if now < next then 0 else counted step now n next + 1
      | .error _ => 0

/-- A calendar addition, as a step. -/
def calendarStep (add : Time → Option Time) (t : Time) : Except Failure Time :=
  match add t with
  | some t => .ok t
  | none => .error .uncaught

section steps

variable {step : Time → Except Failure Time}

theorem countSteps_of_defined (h : defined step now n t = true) :
    countSteps step now n t = .ok (counted step now n t) := by
  induction n generalizing t with
  | zero => rfl
  | succ n ih =>
    simp only [defined] at h
    simp only [countSteps, counted]
    cases hstep : step t with
    | error e => simp [hstep] at h
    | ok next =>
      simp only [hstep, Bool.or_eq_true, decide_eq_true_eq] at h
      by_cases hnext : now < next
      · simp [bind, Except.bind, hnext, pure, Except.pure]
      · simp [bind, Except.bind, hnext, pure, Except.pure, ih (h.resolve_left hnext)]

theorem defined_of_countSteps (h : countSteps step now n t = .ok j) :
    defined step now n t = true := by
  induction n generalizing t j with
  | zero => rfl
  | succ n ih =>
    simp only [countSteps] at h
    simp only [defined]
    cases hstep : step t with
    | error e => simp [hstep, bind, Except.bind] at h
    | ok next =>
      simp only [hstep, bind, Except.bind] at h
      by_cases hnext : now < next
      · simp [hnext]
      · rw [if_neg hnext] at h
        cases hrest : countSteps step now n next with
        | error e => simp [hrest] at h
        | ok m => simp [ih hrest]

theorem countSteps_eq_ok_iff : countSteps step now n t = .ok j ↔
    defined step now n t = true ∧ counted step now n t = j := by
  constructor
  · intro h
    have hdefined := defined_of_countSteps h
    rw [countSteps_of_defined hdefined] at h
    exact ⟨hdefined, Except.ok.inj h⟩
  · rintro ⟨hdefined, rfl⟩
    exact countSteps_of_defined hdefined

theorem counted_le : counted step now n t ≤ n := by
  induction n generalizing t with
  | zero => exact Nat.le_refl 0
  | succ n ih =>
    unfold counted
    split
    · split
      · exact Nat.zero_le _
      · exact Nat.succ_le_succ ih
    · exact Nat.zero_le _

theorem counted_of_le (hforward : ∀ t t', step t = .ok t' → t < t') (h : now ≤ t) :
    counted step now n t = 0 := by
  cases n with
  | zero => rfl
  | succ n =>
    unfold counted
    cases hstep : step t with
    | error e => rfl
    | ok next => exact if_pos (h.trans_lt (hforward t next hstep))

end steps

/-! ## The runs of a calendar interval -/

/-- The start of a period, if it is in range. -/
def period (add : Time → Option Time) : ℕ → Time → Option Time
  | 0, t => some t
  | j + 1, t => (add t).bind (period add j)

theorem period_succ : period add (j + 1) t = (period add j t).bind add := by
  induction j generalizing t with
  | zero => cases h : add t <;> simp [period, h]
  | succ j ih =>
    rw [period, period]
    cases h : add t with
    | none => rfl
    | some t' =>
      rw [Option.bind_some, ih]
      rfl

theorem le_of_period (hforward : ∀ t t', add t = some t' → t < t') (h : period add j anchor = some t) :
    anchor ≤ t := by
  induction j generalizing anchor with
  | zero =>
    cases h
    exact le_refl _
  | succ j ih =>
    obtain ⟨t', hadd, hrest⟩ := Option.bind_eq_some_iff.mp h
    exact (hforward _ _ hadd).le.trans (ih hrest)

/-- From the start of a period, the loop goes on to the next one, unless its bound stops it. -/
theorem walk_of_period (hforward : ∀ t t', add t = some t' → t < t') (hj : j ≤ n)
    (h : period add j anchor = some t) :
    walk add t n anchor = if j < n then calendarStep add t else .ok t := by
  induction j generalizing n anchor with
  | zero =>
    obtain rfl : anchor = t := Option.some.inj h
    cases n with
    | zero => rfl
    | succ n =>
      unfold walk
      rw [if_neg (lt_irrefl anchor), if_pos (Nat.succ_pos n), calendarStep]
      cases hadd : add anchor with
      | none => rfl
      | some t =>
        have hlt := hforward _ _ hadd
        cases n with
        | zero => rfl
        | succ n => exact if_pos hlt
  | succ j ih =>
    obtain ⟨t', hadd, hrest⟩ := Option.bind_eq_some_iff.mp h
    cases n with
    | zero => cases hj
    | succ n =>
      have hlt := (hforward _ _ hadd).trans_le (le_of_period hforward hrest)
      unfold walk
      rw [if_neg (not_lt.mpr hlt.le), hadd]
      simp only [Nat.succ_lt_succ_iff]
      exact ih (Nat.le_of_succ_le_succ hj) hrest

theorem period_of_walk {after : Time} (h : walk add after n anchor = .ok t) :
    ∃ j ≤ n, period add j anchor = some t := by
  induction n generalizing anchor with
  | zero =>
    cases h
    exact ⟨0, Nat.le_refl 0, rfl⟩
  | succ n ih =>
    unfold walk at h
    split at h
    · cases h
      exact ⟨0, Nat.zero_le _, rfl⟩
    · cases hadd : add anchor with
      | none => simp [hadd] at h
      | some t' =>
        simp only [hadd] at h
        obtain ⟨j, hj, hperiod⟩ := ih h
        exact ⟨j + 1, Nat.succ_le_succ hj, by rw [period, hadd, Option.bind_some, hperiod]⟩

theorem lt_of_passes (hforward : ∀ t t', add t = some t' → t < t')
    (hpasses : passes add now n anchor = true) (h : period add n anchor = some t) : now < t := by
  induction n generalizing anchor with
  | zero =>
    cases h
    simpa [passes] using hpasses
  | succ n ih =>
    have hle := le_of_period hforward h
    obtain ⟨t', hadd, hrest⟩ := Option.bind_eq_some_iff.mp h
    simp only [passes, hadd, Option.all_some, Bool.or_eq_true, decide_eq_true_eq] at hpasses
    rcases hpasses with hlt | hpasses
    · exact hlt.trans_le hle
    · exact ih hpasses hrest

theorem period_of_not_passes (h : passes add now n anchor = false) (hj : j ≤ n) :
    ∃ t, period add j anchor = some t ∧ t ≤ now := by
  induction j generalizing n anchor with
  | zero =>
    refine ⟨anchor, rfl, not_lt.mp fun hlt => ?_⟩
    cases n <;> simp [passes, hlt] at h
  | succ j ih =>
    cases n with
    | zero => cases hj
    | succ n =>
      simp only [passes, Bool.or_eq_false_iff] at h
      cases hadd : add anchor with
      | none => simp [hadd] at h
      | some t' =>
        rw [hadd, Option.all_some] at h
        obtain ⟨t, hperiod, hle⟩ := ih h.2 (Nat.le_of_succ_le_succ hj)
        exact ⟨t, by rw [period, hadd, Option.bind_some, hperiod], hle⟩

/-- All periods count just where none passes `now`. -/
theorem counted_eq_iff (hforward : ∀ t t', add t = some t' → t < t') (h : n ≠ 0 ∨ t ≤ now) :
    counted (calendarStep add) now n t = n ↔ passes add now n t = false := by
  induction n generalizing t with
  | zero => simpa [counted, passes] using h
  | succ n ih =>
    simp only [counted, passes, calendarStep]
    cases hadd : add t with
    | none => simp
    | some t' =>
      have hlt := hforward _ _ hadd
      by_cases hnext : now < t'
      · have hpasses : passes add now n t' = true := by
          cases n <;> simp [passes, hnext]
        simp [hnext, hpasses]
      · have hle : t ≤ now := hlt.le.trans (not_lt.mp hnext)
        simp [hnext, not_lt.mpr hle, ih (.inr (not_lt.mp hnext))]

/-! ## Iterating the next run -/

section iterated

variable {step : Time → Except Failure Time} {P : Time → Prop}

/-- Where the next run is the next step, iterating it is counting steps. -/
theorem iterated_eq_counted (hforward : ∀ t t', step t = .ok t' → t < t')
    (hnext : ∀ t, P t → nextRun lib lib.utc c t = (step t).map some ∨
      now < t ∧ nextRun lib lib.utc c t = .ok (some t))
    (hkeeps : ∀ t t', P t → step t = .ok t' → t' ≤ now → P t') (ht : P t) :
    iterated lib c now n t = counted step now n t := by
  induction n generalizing t with
  | zero => rfl
  | succ n ih =>
    unfold iterated
    rcases hnext t ht with hrun | ⟨hlt, hrun⟩
    · rw [hrun, counted]
      cases hstep : step t with
      | error e => rfl
      | ok next =>
        by_cases hpast : now < next
        · simp [Except.map, hpast]
        · simp [Except.map, hpast, ih (hkeeps t next ht hstep (not_lt.mp hpast))]
    · rw [hrun, counted_of_le hforward hlt.le]
      exact if_pos hlt

/-- Where the next run never gets past `now`, it can be taken again and again. -/
theorem iterated_stuck
    (hnext : ∀ t, P t → ∃ t', nextRun lib lib.utc c t = .ok (some t') ∧ t' ≤ now ∧ P t') (ht : P t) :
    iterated lib c now n t = n := by
  induction n generalizing t with
  | zero => rfl
  | succ n ih =>
    obtain ⟨t', hrun, hle, hP⟩ := hnext t ht
    unfold iterated
    simp only [hrun, if_neg (not_lt.mpr hle), ih hP]

end iterated

/-- One more run is due just where iterating gets anywhere. -/
theorem one_le_iterated : 1 ≤ iterated lib c now (n + 1) t ↔
    ∃ t', nextRun lib lib.utc c t = .ok (some t') ∧ t' ≤ now := by
  unfold iterated
  cases hrun : nextRun lib lib.utc c t with
  | error e => simp
  | ok next =>
    cases next with
    | none => simp
    | some next =>
      by_cases hnext : now < next
      · simp [hnext]
      · simp [hnext, not_lt.mp hnext]

/-! ## Each kind of schedule -/

/-- The count of an interval is defined, and the bound of the loop over a calendar interval does not
show: `now` is passed within ten thousand periods from the anchor, or not within ten thousand from
the instant that is due. -/
def Countable (lib : Libraries) (c : Cadence) (scheduledFor now : Time) : Prop :=
  match c.scheduleType, parseInterval lib c.intervalSpec with
  | .interval, .ok (.calendar unit count) =>
      (scheduledFor < now →
        defined (calendarStep (lib.addCalendar unit count)) now maxSteps scheduledFor = true) ∧
      (reaches lib c now = true ∨
        passes (lib.addCalendar unit count) now maxSteps scheduledFor = false)
  | .cron, _ => scheduledFor < now → ∀ tz, scheduleTz lib c.timezone = .ok tz →
      defined (lib.cronNext c.cronExpression tz) now maxSteps scheduledFor = true
  | _, _ => True

theorem spec_of_fireTime (htype : c.scheduleType = .interval) (h : FireTime lib c scheduledFor) :
    c.intervalSpec ≠ [] ∧ ∃ delta, parseInterval lib c.intervalSpec = .ok delta := by
  obtain ⟨after, hrun⟩ := h
  have hspec : c.intervalSpec ≠ [] := by
    intro hnil
    simp [nextRun, htype, hnil] at hrun
  refine ⟨hspec, ?_⟩
  cases hparse : parseInterval lib c.intervalSpec with
  | ok delta => exact ⟨delta, rfl⟩
  | error e =>
    cases hanchor : c.anchorAt <;>
      simp [nextRun, htype, hspec, hanchor, stepInterval, hparse, bind, Except.bind, Except.map] at hrun

/-! ### Steps that are repeated -/

/-- A schedule whose periods are counted by repeating a step. -/
structure Repeats (lib : Libraries) (c : Cadence) (step : Time → Except Failure Time) : Prop where
  notFixed : c.isFixed lib = false
  forward : ∀ t t', step t = .ok t' → t < t'
  missed : ∀ scheduledFor now, missedPeriods lib c scheduledFor now =
    if now ≤ scheduledFor then .ok 0 else countSteps step now maxSteps scheduledFor

section repeats

variable {step : Time → Except Failure Time}

theorem missedPeriods_of_repeats (h : Repeats lib c step) : missedPeriods lib c scheduledFor now = .ok n ↔
    (scheduledFor < now → defined step now maxSteps scheduledFor = true) ∧
      counted step now maxSteps scheduledFor = n := by
  rw [h.missed]
  by_cases hle : now ≤ scheduledFor
  · have hzero : counted step now maxSteps scheduledFor = 0 := counted_of_le h.forward hle
    rw [if_pos hle, hzero, Except.ok.injEq]
    exact ⟨fun hn => ⟨fun hlt => absurd hlt (not_lt.mpr hle), hn⟩, And.right⟩
  · rw [if_neg hle, countSteps_eq_ok_iff]
    simp [not_le.mp hle]

theorem matches_iff (h : Repeats lib c step) (hn : n ≤ maxSteps) :
    Matches lib c scheduledFor now n ↔ iterated lib c now maxSteps scheduledFor = n := by
  constructor
  · intro hmatches
    rw [hmatches.count maxSteps (.inr rfl), Nat.min_eq_right hn]
  · intro hcount
    refine ⟨fun bound hbound => ?_, fun _ => hn, ?_⟩
    · rw [h.notFixed] at hbound
      rw [hbound.resolve_left Bool.false_ne_true, hcount, Nat.min_eq_right hn]
    · rw [← hcount]
      exact one_le_iterated

/-- The count matches where it is defined and the next run is iterated alike. -/
theorem exists_matches_iff (h : Repeats lib c step) :
    (∃ n, missedPeriods lib c scheduledFor now = .ok n ∧ Matches lib c scheduledFor now n) ↔
      (scheduledFor < now → defined step now maxSteps scheduledFor = true) ∧
        iterated lib c now maxSteps scheduledFor = counted step now maxSteps scheduledFor := by
  constructor
  · rintro ⟨n, hmissed, hmatches⟩
    obtain ⟨hdefined, rfl⟩ := (missedPeriods_of_repeats h).mp hmissed
    exact ⟨hdefined, (matches_iff h counted_le).mp hmatches⟩
  · rintro ⟨hdefined, hcount⟩
    exact ⟨_, (missedPeriods_of_repeats h).mpr ⟨hdefined, rfl⟩, (matches_iff h counted_le).mpr hcount⟩

end repeats

/-! ### Cron -/

theorem cron_matches_iff (hlib : lib.Forward) (htype : c.scheduleType = .cron)
    (hfire : FireTime lib c scheduledFor) :
    (∃ n, missedPeriods lib c scheduledFor now = .ok n ∧ Matches lib c scheduledFor now n) ↔
      Countable lib c scheduledFor now := by
  obtain ⟨after, hrun⟩ := hfire
  have hexpr : c.cronExpression ≠ [] := by
    intro hnil
    simp [nextRun, htype, hnil] at hrun
  cases htz : scheduleTz lib c.timezone with
  | error e => simp [nextRun, htype, hexpr, htz, bind, Except.bind] at hrun
  | ok tz =>
    have hrepeats : Repeats lib c (lib.cronNext c.cronExpression tz) := by
      refine ⟨by simp [Cadence.isFixed, htype], fun t t' => hlib.cron _ _ t t', fun t now => ?_⟩
      simp [missedPeriods, htype, hexpr, htz, bind, Except.bind]
    have hnext : ∀ t, nextRun lib lib.utc c t = (lib.cronNext c.cronExpression tz t).map some := by
      intro t
      simp only [nextRun, htype, if_neg hexpr, htz, bind, Except.bind]
      cases lib.cronNext c.cronExpression tz t <;> rfl
    have hcount : iterated lib c now maxSteps scheduledFor =
        counted (lib.cronNext c.cronExpression tz) now maxSteps scheduledFor :=
      iterated_eq_counted (P := fun _ => True) hrepeats.forward (fun t _ => .inl (hnext t))
        (fun _ _ _ _ _ => trivial) trivial
    rw [exists_matches_iff hrepeats]
    simp [Countable, htype, htz, hcount]

/-! ### Calendar intervals -/

section calendar

variable {unit : CalendarUnit} {count : ℕ}

theorem calendarStep_eq_ok {t' : Time} : calendarStep add t = .ok t' ↔ add t = some t' := by
  unfold calendarStep
  cases add t <;> simp

theorem repeats_calendar (hlib : lib.Forward) (htype : c.scheduleType = .interval)
    (hspec : parseInterval lib c.intervalSpec = .ok (.calendar unit count)) :
    Repeats lib c (calendarStep (lib.addCalendar unit count)) := by
  have hne : c.intervalSpec ≠ [] := by
    intro hnil
    rw [hnil] at hspec
    cases hspec
  refine ⟨by simp [Cadence.isFixed, htype, hspec], fun t t' h => ?_, fun t now => ?_⟩
  · exact hlib.calendar _ _ _ _ (parseInterval_pos hspec) (calendarStep_eq_ok.mp h)
  · simp only [missedPeriods, htype, ne_eq, hne, not_false_eq_true, and_self, if_true, hspec, bind,
      Except.bind]
    rfl

/-- The next run at the start of a period. -/
theorem nextRun_of_period (hlib : lib.Forward) (htype : c.scheduleType = .interval)
    (hspec : parseInterval lib c.intervalSpec = .ok (.calendar unit count)) (hj : j ≤ maxSteps)
    (h : period (lib.addCalendar unit count) j (c.anchorAt.getD t) = some t) :
    nextRun lib lib.utc c t =
      if j < maxSteps then (calendarStep (lib.addCalendar unit count) t).map some
      else .ok (some t) := by
  have hforward : ∀ t t', lib.addCalendar unit count t = some t' → t < t' :=
    fun t t' => hlib.calendar _ _ _ _ (parseInterval_pos hspec)
  have hne : c.intervalSpec ≠ [] := by
    intro hnil
    rw [hnil] at hspec
    cases hspec
  have hrun : nextRun lib lib.utc c t =
      (walk (lib.addCalendar unit count) t maxSteps (c.anchorAt.getD t)).map some := by
    cases hanchor : c.anchorAt <;>
      simp only [nextRun, htype, if_neg hne, hanchor, stepInterval_calendar hspec,
        Option.getD_none, Option.getD_some] <;> rfl
  rw [hrun, walk_of_period hforward hj h]
  split <;> rfl

/-- A fire time of an anchored calendar interval starts one of its periods. -/
theorem period_of_fireTime (htype : c.scheduleType = .interval) (hanchor : c.anchorAt = some anchor)
    (hspec : parseInterval lib c.intervalSpec = .ok (.calendar unit count))
    (hfire : FireTime lib c scheduledFor) :
    ∃ j ≤ maxSteps, period (lib.addCalendar unit count) j anchor = some scheduledFor := by
  obtain ⟨after, hrun⟩ := hfire
  have hne : c.intervalSpec ≠ [] := by
    intro hnil
    rw [hnil] at hspec
    cases hspec
  rw [nextRun_anchored htype hne hanchor, map_some_eq_ok, stepInterval_calendar hspec] at hrun
  exact period_of_walk hrun

theorem unanchored_iterated (hlib : lib.Forward) (htype : c.scheduleType = .interval)
    (hanchor : c.anchorAt = none)
    (hspec : parseInterval lib c.intervalSpec = .ok (.calendar unit count)) :
    iterated lib c now n t = counted (calendarStep (lib.addCalendar unit count)) now n t := by
  refine iterated_eq_counted (P := fun _ => True) (repeats_calendar hlib htype hspec).forward
    (fun t _ => .inl ?_) (fun _ _ _ _ _ => trivial) trivial
  have hperiod : period (lib.addCalendar unit count) 0 (c.anchorAt.getD t) = some t := by
    rw [hanchor]
    rfl
  exact (nextRun_of_period hlib htype hspec (Nat.zero_le _) hperiod).trans (if_pos (by decide))

theorem anchored_iterated (hlib : lib.Forward) (htype : c.scheduleType = .interval)
    (hanchor : c.anchorAt = some anchor)
    (hspec : parseInterval lib c.intervalSpec = .ok (.calendar unit count))
    (hpasses : passes (lib.addCalendar unit count) now maxSteps anchor = true)
    (hfire : FireTime lib c scheduledFor) :
    iterated lib c now n scheduledFor =
      counted (calendarStep (lib.addCalendar unit count)) now n scheduledFor := by
  have hforward : ∀ t t', lib.addCalendar unit count t = some t' → t < t' :=
    fun t t' => hlib.calendar _ _ _ _ (parseInterval_pos hspec)
  refine iterated_eq_counted
    (P := fun t => ∃ j ≤ maxSteps, period (lib.addCalendar unit count) j anchor = some t)
    (repeats_calendar hlib htype hspec).forward ?_ ?_ (period_of_fireTime htype hanchor hspec hfire)
  · rintro t ⟨j, hj, hperiod⟩
    have hrun := nextRun_of_period (t := t) hlib htype hspec hj (by rwa [hanchor])
    rcases hj.lt_or_eq with hlt | rfl
    · exact .inl (hrun.trans (if_pos hlt))
    · exact .inr ⟨lt_of_passes hforward hpasses hperiod, hrun.trans (if_neg (lt_irrefl _))⟩
  · rintro t t' ⟨j, hj, hperiod⟩ hstep hle
    have hadd := calendarStep_eq_ok.mp hstep
    rcases hj.lt_or_eq with hlt | rfl
    · exact ⟨j + 1, hlt, by rw [period_succ, hperiod, Option.bind_some, hadd]⟩
    · exact absurd ((hforward t t' hadd).trans_le hle)
        (not_lt.mpr (lt_of_passes hforward hpasses hperiod).le)

/-- Where the bound of the loop stops it, the next run stays where it is. -/
theorem anchored_stuck (hlib : lib.Forward) (htype : c.scheduleType = .interval)
    (hanchor : c.anchorAt = some anchor)
    (hspec : parseInterval lib c.intervalSpec = .ok (.calendar unit count))
    (hpasses : passes (lib.addCalendar unit count) now maxSteps anchor = false)
    (hfire : FireTime lib c scheduledFor) : iterated lib c now n scheduledFor = n := by
  refine iterated_stuck
    (P := fun t => ∃ j ≤ maxSteps, period (lib.addCalendar unit count) j anchor = some t) ?_
    (period_of_fireTime htype hanchor hspec hfire)
  rintro t ⟨j, hj, hperiod⟩
  have hrun := nextRun_of_period (t := t) hlib htype hspec hj (by rwa [hanchor])
  rcases hj.lt_or_eq with hlt | rfl
  · obtain ⟨t', hperiod', hle⟩ := period_of_not_passes hpasses (Nat.succ_le_of_lt hlt)
    have hadd : lib.addCalendar unit count t = some t' := by
      rwa [period_succ, hperiod, Option.bind_some] at hperiod'
    rw [if_pos hlt, calendarStep_eq_ok.mpr hadd] at hrun
    exact ⟨t', hrun, hle, j + 1, hlt, hperiod'⟩
  · obtain ⟨t', hperiod', hle⟩ := period_of_not_passes hpasses (Nat.le_refl maxSteps)
    obtain rfl : t = t' := Option.some.inj (hperiod.symm.trans hperiod')
    exact ⟨t, hrun.trans (if_neg (lt_irrefl _)), hle, maxSteps, Nat.le_refl _, hperiod⟩

theorem calendar_matches_iff (hlib : lib.Forward) (htype : c.scheduleType = .interval)
    (hspec : parseInterval lib c.intervalSpec = .ok (.calendar unit count))
    (hfire : FireTime lib c scheduledFor) :
    (∃ n, missedPeriods lib c scheduledFor now = .ok n ∧ Matches lib c scheduledFor now n) ↔
      Countable lib c scheduledFor now := by
  have hforward : ∀ t t', lib.addCalendar unit count t = some t' → t < t' :=
    fun t t' => hlib.calendar _ _ _ _ (parseInterval_pos hspec)
  rw [exists_matches_iff (repeats_calendar hlib htype hspec)]
  simp only [Countable, htype, hspec]
  cases hanchor : c.anchorAt with
  | none =>
    have hreaches : reaches lib c now = true := by simp [reaches, hanchor]
    simp [unanchored_iterated hlib htype hanchor hspec, hreaches]
  | some anchor =>
    have hreaches : reaches lib c now = passes (lib.addCalendar unit count) now maxSteps anchor := by
      simp [reaches, htype, hanchor, hspec]
    cases hpasses : passes (lib.addCalendar unit count) now maxSteps anchor with
    | true =>
      simp [anchored_iterated hlib htype hanchor hspec hpasses hfire, hreaches, hpasses]
    | false =>
      rw [anchored_stuck hlib htype hanchor hspec hpasses hfire, hreaches, hpasses,
        ← counted_eq_iff hforward (.inl (by decide)), eq_comm (a := maxSteps)]
      simp

end calendar

/-! ### Fixed intervals -/

section fixed

variable {length : Time}

/-- One period further, in range. -/
def fixedStep (length : Time) : Time → Except Failure Time := calendarStep fun t => inRange (t + length)

theorem fixedStep_eq_ok {t' : Time} : fixedStep length t = .ok t' ↔
    minTime ≤ t + length ∧ t + length ≤ maxTime ∧ t' = t + length := by
  rw [fixedStep, calendarStep_eq_ok, inRange]
  split
  · rename_i hrange
    simp [hrange, eq_comm]
  · rename_i hrange
    simp only [reduceCtorEq, false_iff]
    exact fun h => hrange ⟨h.1, h.2.1⟩

/-- A fixed interval counts by division. -/
theorem counted_fixed (hlength : 0 < length) (hmin : minTime ≤ t) (hmax : now ≤ maxTime) :
    counted (fixedStep length) now n t = min n ((now - t) / length).toNat := by
  induction n generalizing t with
  | zero => simp [counted]
  | succ n ih =>
    unfold counted
    by_cases hnext : now < t + length
    · have hzero : ((now - t) / length).toNat = 0 := by
        have hlt : (now - t) / length < 1 :=
          (Int.ediv_lt_iff_lt_mul hlength).mpr (by linarith)
        exact Int.toNat_of_nonpos (Int.lt_add_one_iff.mp hlt)
      rw [hzero, Nat.min_zero]
      cases hstep : fixedStep length t with
      | error e => rfl
      | ok t' => exact if_pos ((fixedStep_eq_ok.mp hstep).2.2 ▸ hnext)
    · have hle : t + length ≤ now := not_lt.mp hnext
      have hmin' : minTime ≤ t + length := hmin.trans (le_add_of_nonneg_right hlength.le)
      have hstep : fixedStep length t = .ok (t + length) :=
        fixedStep_eq_ok.mpr ⟨hmin', hle.trans hmax, rfl⟩
      have hquot : (now - (t + length)) / length = (now - t) / length - 1 := by
        rw [show now - (t + length) = now - t + -1 * length by ring,
          Int.add_mul_ediv_right _ _ hlength.ne']
        rfl
      have hpos : 1 ≤ (now - t) / length :=
        (Int.le_ediv_iff_mul_le hlength).mpr (by linarith)
      rw [hstep]
      simp only [if_neg hnext]
      rw [ih hmin', hquot]
      unfold Time at *
      omega

/-- From a point of its cadence, a fixed interval goes on to the next point. -/
theorem nextRun_fixed (htype : c.scheduleType = .interval)
    (hspec : parseInterval lib c.intervalSpec = .ok (.fixed length))
    (hpoint : ∃ k : ℕ, t = c.anchorAt.getD t + k * length) :
    nextRun lib lib.utc c t = (fixedStep length t).map some := by
  obtain ⟨k, hk⟩ := hpoint
  have hlength : 0 < length := parseInterval_pos hspec
  have hne : c.intervalSpec ≠ [] := by
    intro hnil
    rw [hnil] at hspec
    cases hspec
  have hrun : nextRun lib lib.utc c t =
      (stepInterval lib lib.utc (c.anchorAt.getD t) c.intervalSpec t).map some := by
    cases hanchor : c.anchorAt <;>
      simp only [nextRun, htype, if_neg hne, hanchor, Option.getD_none, Option.getD_some]
  have hsub : t - c.anchorAt.getD t = k * length := sub_eq_of_eq_add' hk
  have hgap : (t - c.anchorAt.getD t) / length + 1 = k + 1 := by
    rw [hsub, Int.mul_ediv_cancel _ hlength.ne']
  have hnot : ¬t < c.anchorAt.getD t := by
    have hle : 0 ≤ t - c.anchorAt.getD t :=
      hsub ▸ Int.mul_nonneg (Int.natCast_nonneg k) hlength.le
    exact not_lt.mpr (sub_nonneg.mp hle)
  have hnext : c.anchorAt.getD t + (k + 1) * length = t + length := by
    rw [add_mul, one_mul, ← add_assoc, ← hk]
  rw [hrun]
  simp only [stepInterval, hspec, bind, Except.bind, if_neg hnot, hgap, fixedStep, calendarStep,
    Libraries.utc, hnext]
  cases inRange (t + length) <;> rfl

/-- A fire time of a fixed interval is a point of its cadence. -/
theorem point_of_fireTime (htype : c.scheduleType = .interval)
    (hspec : parseInterval lib c.intervalSpec = .ok (.fixed length))
    (hfire : FireTime lib c scheduledFor) :
    ∃ k : ℕ, scheduledFor = c.anchorAt.getD scheduledFor + k * length := by
  obtain ⟨after, hrun⟩ := hfire
  have hlength : 0 < length := parseInterval_pos hspec
  cases hanchor : c.anchorAt with
  | none => exact ⟨0, by simp⟩
  | some anchor =>
    have hne := (spec_of_fireTime htype ⟨after, hrun⟩).1
    rw [nextRun_anchored htype hne hanchor, map_some_eq_ok] at hrun
    simp only [stepInterval, hspec, bind, Except.bind, Libraries.utc] at hrun
    rw [Option.getD_some]
    by_cases hbefore : after < anchor
    · rw [if_pos hbefore] at hrun
      exact ⟨0, by simpa using (Except.ok.inj hrun).symm⟩
    · rw [if_neg hbefore] at hrun
      have hgap : 0 ≤ (after - anchor) / length + 1 :=
        Int.add_nonneg (Int.ediv_nonneg (sub_nonneg.mpr (not_lt.mp hbefore)) hlength.le)
          (by decide)
      cases hnext : inRange (anchor + ((after - anchor) / length + 1) * length) with
      | none => simp [hnext] at hrun
      | some next =>
        simp only [hnext] at hrun
        refine ⟨((after - anchor) / length + 1).toNat, ?_⟩
        rw [Int.toNat_of_nonneg hgap, ← inRange_eq hnext]
        exact (Except.ok.inj hrun).symm

theorem fixed_matches (htype : c.scheduleType = .interval)
    (hspec : parseInterval lib c.intervalSpec = .ok (.fixed length))
    (hfire : FireTime lib c scheduledFor) (hmin : minTime ≤ scheduledFor) (hmax : now ≤ maxTime) :
    ∃ n, missedPeriods lib c scheduledFor now = .ok n ∧ Matches lib c scheduledFor now n := by
  have hlength : 0 < length := parseInterval_pos hspec
  have hne := (spec_of_fireTime htype hfire).1
  have hmissed : missedPeriods lib c scheduledFor now = .ok ((now - scheduledFor) / length).toNat := by
    by_cases hle : now ≤ scheduledFor
    · have hzero : ((now - scheduledFor) / length).toNat = 0 := by
        have hlt : (now - scheduledFor) / length < 1 :=
          (Int.ediv_lt_iff_lt_mul hlength).mpr (by linarith)
        exact Int.toNat_of_nonpos (Int.lt_add_one_iff.mp hlt)
      simp [missedPeriods, hle, hzero]
    · simp [missedPeriods, hle, htype, hne, hspec, bind, Except.bind, pure, Except.pure]
  have hforward : ∀ t t', fixedStep length t = .ok t' → t < t' := by
    intro t t' h
    rw [(fixedStep_eq_ok.mp h).2.2]
    exact lt_add_of_pos_right t hlength
  have hcount : ∀ bound, iterated lib c now bound scheduledFor =
      min bound ((now - scheduledFor) / length).toNat := by
    intro bound
    rw [← counted_fixed hlength hmin hmax]
    refine iterated_eq_counted (P := fun t => ∃ k : ℕ, t = c.anchorAt.getD t + k * length) hforward
      (fun t ht => .inl (nextRun_fixed htype hspec ht)) ?_ (point_of_fireTime htype hspec hfire)
    rintro t t' ⟨k, hk⟩ hstep -
    obtain ⟨-, -, rfl⟩ := fixedStep_eq_ok.mp hstep
    cases hanchor : c.anchorAt with
    | none => exact ⟨0, by simp⟩
    | some anchor =>
      rw [hanchor, Option.getD_some] at hk
      refine ⟨k + 1, ?_⟩
      rw [Option.getD_some, hk, Nat.cast_add_one, add_mul, one_mul, add_assoc]
  refine ⟨_, hmissed, fun bound _ => hcount bound, fun hfixed => ?_, ?_⟩
  · simp [Cadence.isFixed, htype, hspec] at hfixed
  · rw [← one_le_iterated (n := 0), hcount]
    omega

end fixed

/-! ## The count and the schedule -/

theorem parseInterval_monthly :
    parseInterval gregorian monthly.intervalSpec = .ok (.calendar .months 1) := by rfl

theorem monthInstant_lt {month month' : ℕ} (h : month < month') :
    monthInstant month < monthInstant month' := by
  have := Calendar.monthStart_strictMono h
  unfold monthInstant Time
  omega

theorem monthInstant_le_maxTime {month : ℕ} (h : month ≤ 100000) : monthInstant month ≤ maxTime := by
  have := Calendar.monthStart_le month
  unfold monthInstant minTime maxTime Time
  omega

theorem minTime_le_monthInstant (month : ℕ) : minTime ≤ monthInstant month :=
  le_add_of_nonneg_right (Int.natCast_nonneg _)

/-- From the first of a month, periods start on the first. -/
theorem period_monthInstant {month : ℕ} (h : month + j ≤ 100000) :
    period (addRelative .months 1) j (monthInstant month) = some (monthInstant (month + j)) := by
  induction j with
  | zero => rfl
  | succ j ih =>
    rw [period_succ, ih (by omega), Option.bind_some, addRelative_monthInstant (by omega)]
    rfl

/-- Monthly periods that start on the first pass every instant in time. -/
theorem passes_monthInstant {month : ℕ} (h : month + j ≤ 100000) (hj : j ≤ n)
    (hlt : now < monthInstant (month + j)) :
    passes (addRelative .months 1) now n (monthInstant month) = true := by
  by_contra hpasses
  obtain ⟨t, hperiod, hle⟩ := period_of_not_passes (Bool.not_eq_true _ ▸ hpasses) hj
  rw [period_monthInstant h] at hperiod
  exact absurd (Option.some.inj hperiod ▸ hle) (not_le.mpr hlt)

end CwStation.Scheduler
