import CwStation.Verification.Scheduler.Gregorian

/-! # The periods of an anchored interval -/

namespace CwStation.Scheduler

open Tasks (Time seconds)
open Calendar

variable {lib : Libraries} {c : Cadence} {delta : IntervalDelta} {anchor after next : Time} {k n : ℕ}

/-! ## Instants by days -/

/-- A day, counted from the first one, and the microseconds of it that have gone by. -/
def instant (day rest : ℕ) : Time := minTime + (day * 86400000000 + rest : ℕ)

/-- The day of an instant. -/
def dayOf (t : Time) : ℕ := (t - minTime).toNat / 86400000000

def restOf (t : Time) : ℕ := (t - minTime).toNat % 86400000000

theorem instant_dayOf (h : minTime ≤ anchor) : instant (dayOf anchor) (restOf anchor) = anchor := by
  have hsplit := Nat.div_add_mod (anchor - minTime).toNat 86400000000
  unfold instant dayOf restOf Time at *
  omega

theorem restOf_lt (t : Time) : restOf t < 86400000000 := Nat.mod_lt _ (by decide)

section instant

variable {day day' rest : ℕ}

theorem sub_minTime_instant : (instant day rest - minTime).toNat = day * 86400000000 + rest := by
  rw [instant, add_sub_cancel_left, Int.toNat_natCast]

theorem dayOf_instant (h : rest < 86400000000) : dayOf (instant day rest) = day := by
  rw [dayOf, sub_minTime_instant]
  omega

theorem restOf_instant (h : rest < 86400000000) : restOf (instant day rest) = rest := by
  rw [restOf, sub_minTime_instant]
  omega

theorem instant_le : instant day rest ≤ instant day' rest ↔ day ≤ day' := by
  unfold instant Time
  omega

theorem instant_inj : instant day rest = instant day' rest ↔ day = day' := by
  unfold instant Time
  omega

end instant

/-! ## Months behind an instant -/

def CalendarUnit.inMonths : CalendarUnit → ℕ
  | .months => 1
  | .years => 12

/-- So many months later, whatever the year. -/
def laterBy (n : ℕ) (t : Time) : Time := instant (addMonths n (dayOf t)) (restOf t)

theorem addRelative_eq (unit : CalendarUnit) (count : ℕ) (t : Time) :
    addRelative unit count t = inRange (laterBy (unit.inMonths * count) t) := by
  cases unit <;> simp only [addRelative, laterBy, instant, dayOf, restOf, CalendarUnit.inMonths,
    one_mul]

theorem laterBy_instant {day rest : ℕ} (h : rest < 86400000000) :
    laterBy n (instant day rest) = instant (addMonths n day) rest := by
  rw [laterBy, dayOf_instant h, restOf_instant h]

theorem iterate_laterBy (h : minTime ≤ anchor) :
    (laterBy n)^[k] anchor = instant ((addMonths n)^[k] (dayOf anchor)) (restOf anchor) := by
  induction k with
  | zero => exact (instant_dayOf h).symm
  | succ k ih =>
    rw [Function.iterate_succ_apply', ih, laterBy_instant (restOf_lt anchor),
      Function.iterate_succ_apply']

/-! ## Points of the cadence -/

/-- So many periods behind an instant. -/
def IntervalDelta.point (delta : IntervalDelta) (anchor : Time) (k : ℕ) : Time :=
  match delta with
  | .fixed delta => anchor + k * delta
  | .calendar unit count => laterBy (k * (unit.inMonths * count)) anchor

/-- The period is the first one that begins behind `after`. -/
structure IntervalDelta.First (delta : IntervalDelta) (anchor after : Time) (k : ℕ) : Prop where
  behind : after < delta.point anchor k
  before : ∀ j < k, delta.point anchor j ≤ after

/-- A calendar interval is followed for ten thousand periods. -/
def IntervalDelta.Within (delta : IntervalDelta) (k : ℕ) : Prop :=
  match delta with
  | .fixed _ => True
  | .calendar _ _ => k < maxSteps

/-- No month on the way to the period is too short for its day. -/
def IntervalDelta.Kept (delta : IntervalDelta) (anchor : Time) (k : ℕ) : Prop :=
  match delta with
  | .fixed _ => True
  | .calendar unit count =>
      let month (j : ℕ) : ℕ := monthOf (dayOf anchor) + j * (unit.inMonths * count)
      ∀ j ≤ k, min (dayIn (dayOf anchor)) (monthDays (month k) - 1) < monthDays (month j)

theorem iterate_le_laterBy (h : minTime ≤ anchor) :
    (laterBy n)^[k] anchor ≤ laterBy (k * n) anchor := by
  rw [iterate_laterBy h, laterBy, instant_le]
  exact iterate_le_addMonths k (dayOf anchor)

theorem iterate_eq_laterBy_iff {unit : CalendarUnit} {count : ℕ} (h : minTime ≤ anchor) :
    (laterBy (unit.inMonths * count))^[k] anchor = (IntervalDelta.calendar unit count).point anchor k ↔
      (IntervalDelta.calendar unit count).Kept anchor k := by
  rw [iterate_laterBy h, IntervalDelta.point, laterBy, instant_inj]
  exact iterate_eq_addMonths_iff k (dayOf anchor)

/-! ## The loop -/

/-- Where one of its periods passes `after`, the loop gives the first that does. -/
theorem walk_eq_of_first {add : Time → Option Time} (start : ℕ → Time) {m : ℕ} (hkn : k ≤ m)
    (hadd : ∀ j < k, add (start j) = some (start (j + 1))) (hle : ∀ j < k, start j ≤ after)
    (hlt : after < start k) : walk add after m (start 0) = .ok (start k) := by
  induction k generalizing start m with
  | zero =>
    cases m with
    | zero => rfl
    | succ m => exact if_pos hlt
  | succ k ih =>
    cases m with
    | zero => cases hkn
    | succ m =>
      unfold walk
      rw [if_neg (not_lt.mpr (hle 0 (Nat.succ_pos k))), hadd 0 (Nat.succ_pos k)]
      exact ih (fun j => start (j + 1)) (Nat.le_of_succ_le_succ hkn)
        (fun j hj => hadd (j + 1) (Nat.succ_lt_succ hj))
        (fun j hj => hle (j + 1) (Nat.succ_lt_succ hj)) hlt

/-- What the loop gives is one of its periods. -/
theorem exists_iterate_of_walk {f : Time → Time} {m : ℕ} {t : Time}
    (h : walk (fun t => inRange (f t)) after m t = .ok next) : ∃ j, next = f^[j] t := by
  induction m generalizing t with
  | zero =>
    cases h
    exact ⟨0, rfl⟩
  | succ m ih =>
    unfold walk at h
    split at h
    · cases h
      exact ⟨0, rfl⟩
    · cases hrange : inRange (f t) with
      | none => simp [hrange] at h
      | some t' =>
        simp only [hrange] at h
        obtain ⟨j, hj⟩ := ih h
        rw [inRange_eq hrange] at hj
        exact ⟨j + 1, hj⟩

theorem inRange_of_le {t : Time} (hmin : minTime ≤ t) (hmax : t ≤ maxTime) : inRange t = some t :=
  if_pos ⟨hmin, hmax⟩

theorem minTime_le_instant (day rest : ℕ) : minTime ≤ instant day rest :=
  le_add_of_nonneg_right (Int.natCast_nonneg _)

/-- A calendar loop gives the first of its periods that passes `after`, where the clamped additions
have not fallen behind the cadence. -/
theorem walk_calendar_iff {unit : CalendarUnit} {count : ℕ} (hcount : 0 < count)
    (hanchor : minTime ≤ anchor) (hfirst : (IntervalDelta.calendar unit count).First anchor after k)
    (hmax : (IntervalDelta.calendar unit count).point anchor k ≤ maxTime) (hsteps : k < maxSteps) :
    walk (addRelative unit count) after maxSteps anchor =
        .ok ((IntervalDelta.calendar unit count).point anchor k) ↔
      (IntervalDelta.calendar unit count).Kept anchor k := by
  have hadd : addRelative unit count = fun t => inRange (laterBy (unit.inMonths * count) t) :=
    funext (addRelative_eq unit count)
  rw [← iterate_eq_laterBy_iff hanchor, hadd]
  constructor
  · intro hwalk
    obtain ⟨j, hj⟩ := exists_iterate_of_walk hwalk
    have hpos : 0 < unit.inMonths * count := by
      cases unit <;> simpa [CalendarUnit.inMonths] using hcount
    have hmonths : monthOf (dayOf anchor) + k * (unit.inMonths * count) =
        monthOf (dayOf anchor) + j * (unit.inMonths * count) := by
      rw [iterate_laterBy hanchor, IntervalDelta.point, laterBy, instant_inj] at hj
      rw [← monthOf_addMonths, hj, monthOf_iterate]
    have hjk : k = j := Nat.eq_of_mul_eq_mul_right hpos (Nat.add_left_cancel hmonths)
    rw [hj, hjk]
  · intro hkept
    have hmono : ∀ j ≤ k, (laterBy (unit.inMonths * count))^[j] anchor ≤ maxTime := by
      intro j hj
      have hpoint : laterBy (j * (unit.inMonths * count)) anchor ≤
          laterBy (k * (unit.inMonths * count)) anchor :=
        instant_le.mpr ((addMonths_strictMono (dayOf anchor)).monotone (Nat.mul_le_mul_right _ hj))
      exact ((iterate_le_laterBy hanchor).trans hpoint).trans hmax
    rw [← hkept]
    refine walk_eq_of_first (fun j => (laterBy (unit.inMonths * count))^[j] anchor) hsteps.le
      (fun j hj => ?_) (fun j hj => ?_) (hkept ▸ hfirst.behind)
    · have hnext := hmono (j + 1) hj
      rw [Function.iterate_succ_apply'] at hnext ⊢
      exact inRange_of_le (minTime_le_instant _ _) hnext
    · exact (iterate_le_laterBy hanchor).trans (hfirst.before j hj)

/-- A fixed interval is jumped over in one step. -/
theorem stepInterval_fixed {spec : Str} {length : Time} (hlength : 0 < length)
    (hspec : parseInterval lib spec = .ok (.fixed length)) (hanchor : minTime ≤ anchor)
    (hfirst : (IntervalDelta.fixed length).First anchor after k)
    (hmax : (IntervalDelta.fixed length).point anchor k ≤ maxTime) :
    stepInterval lib lib.utc anchor spec after =
      .ok ((IntervalDelta.fixed length).point anchor k) := by
  simp only [stepInterval, hspec, bind, Except.bind]
  cases k with
  | zero =>
    have hbehind : after < anchor := by simpa [IntervalDelta.point] using hfirst.behind
    rw [if_pos hbehind]
    simp [IntervalDelta.point, pure, Except.pure]
  | succ k =>
    have hbefore : anchor ≤ after := by
      simpa [IntervalDelta.point] using hfirst.before 0 (Nat.succ_pos k)
    have hsteps : (after - anchor) / length + 1 = ((k + 1 : ℕ) : Time) := by
      have hlast := hfirst.before k (Nat.lt_succ_self k)
      have hbehind := hfirst.behind
      simp only [IntervalDelta.point] at hlast hbehind
      have hge : (k : ℤ) ≤ (after - anchor) / length :=
        (Int.le_ediv_iff_mul_le hlength).mpr (by linarith)
      have hlt : (after - anchor) / length < ((k + 1 : ℕ) : ℤ) :=
        (Int.ediv_lt_iff_lt_mul hlength).mpr (by linarith)
      unfold Time at *
      omega
    have hrange : inRange ((IntervalDelta.fixed length).point anchor (k + 1)) =
        some ((IntervalDelta.fixed length).point anchor (k + 1)) :=
      inRange_of_le (hanchor.trans (hbefore.trans hfirst.behind.le)) hmax
    rw [if_neg (not_lt.mpr hbefore), hsteps]
    have hadd : lib.utc.add anchor (((k + 1 : ℕ) : Time) * length) =
        some ((IntervalDelta.fixed length).point anchor (k + 1)) := hrange
    rw [hadd]
    rfl

theorem map_some_eq_ok {α : Type} {x : Except Failure α} {a : α} :
    x.map some = .ok (some a) ↔ x = .ok a := by
  cases x <;> simp [Except.map]

/-- An anchored interval fires next at the first point of its cadence behind `after`, if and only if
no month on the way is too short for the day of that point. -/
theorem nextRun_anchored_iff (hlib : lib.addCalendar = addRelative)
    (htype : c.scheduleType = .interval) (hanchor : c.anchorAt = some anchor)
    (hspec : parseInterval lib c.intervalSpec = .ok delta) (hmin : minTime ≤ anchor)
    (hfirst : delta.First anchor after k) (hmax : delta.point anchor k ≤ maxTime)
    (hsteps : delta.Within k) :
    nextRun lib lib.utc c after = .ok (some (delta.point anchor k)) ↔ delta.Kept anchor k := by
  have hne : c.intervalSpec ≠ [] := by
    intro hnil
    rw [hnil] at hspec
    cases hspec
  have hpos := parseInterval_pos hspec
  rw [nextRun_anchored htype hne hanchor]
  cases delta with
  | fixed length =>
      rw [stepInterval_fixed hpos hspec hmin hfirst hmax]
      exact iff_of_true rfl trivial
  | calendar unit count =>
      rw [← walk_calendar_iff hpos hmin hfirst hmax hsteps, stepInterval_calendar hspec,
        Libraries.utc, hlib, map_some_eq_ok]

/-! ### The 31st of every month -/

/-- The last day of a month, at midnight. -/
def lastDay (month : ℕ) : Time := instant (monthStart month + (monthDays month - 1)) 0

/-- January of 2026. -/
def january : ℕ := 24300

/-- Monthly, from the 31st of January. -/
def thirtyFirst : Cadence where
  scheduleType := .interval
  intervalSpec := "1mo".toList
  anchorAt := some (lastDay january)

theorem lastDay_lt (month : ℕ) : lastDay month < lastDay (month + 1) := by
  have hpos := le_monthDays month
  have hpos' := le_monthDays (month + 1)
  rw [← not_le, lastDay, lastDay, instant_le, monthStart]
  omega

theorem lastDay_le (month : ℕ) (h : month < 100000) : lastDay month ≤ maxTime := by
  have hstart := monthStart_le month
  have hdays := monthDays_le month
  unfold lastDay instant minTime maxTime Time
  omega

theorem dayOf_lastDay (month : ℕ) :
    dayOf (lastDay month) = monthStart month + (monthDays month - 1) := dayOf_instant (by decide)

theorem monthOf_lastDay (month : ℕ) : monthOf (dayOf (lastDay month)) = month := by
  have hpos := le_monthDays month
  rw [dayOf_lastDay, monthOf_add (by omega)]

theorem dayIn_lastDay (month : ℕ) : dayIn (dayOf (lastDay month)) = monthDays month - 1 := by
  rw [dayIn, monthOf_lastDay, dayOf_lastDay, Nat.add_sub_cancel_left]

/-- From the last day of a month with 31 days, the cadence goes from last day to last day. -/
theorem point_lastDay {month : ℕ} (h : monthDays month = 31) (j : ℕ) :
    (IntervalDelta.calendar .months 1).point (lastDay month) j = lastDay (month + j) := by
  have hle := monthDays_le (month + j)
  have hrest : restOf (lastDay month) = 0 := restOf_instant (by decide)
  rw [IntervalDelta.point, laterBy, addMonths_eq, monthOf_lastDay, dayIn_lastDay, hrest, h, lastDay,
    instant_inj]
  simp only [CalendarUnit.inMonths, Nat.mul_one]
  omega

theorem first_lastDay {month : ℕ} (h : monthDays month = 31) (j : ℕ) :
    (IntervalDelta.calendar .months 1).First (lastDay month) (lastDay (month + j)) (j + 1) := by
  refine ⟨?_, fun i hi => ?_⟩
  · rw [point_lastDay h]
    exact lastDay_lt (month + j)
  · rw [point_lastDay h]
    exact (strictMono_nat_of_lt_succ lastDay_lt).monotone (by omega)

theorem minTime_le_lastDay (month : ℕ) : minTime ≤ lastDay month := minTime_le_instant _ _

theorem kept_lastDay {month : ℕ} : (IntervalDelta.calendar .months 1).Kept (lastDay month) k ↔
    ∀ j ≤ k, min (monthDays month - 1) (monthDays (month + k) - 1) < monthDays (month + j) := by
  simp only [IntervalDelta.Kept, monthOf_lastDay, dayIn_lastDay, CalendarUnit.inMonths, Nat.mul_one]

theorem monthDays_january : monthDays january = 31 := by decide

theorem parseInterval_thirtyFirst :
    parseInterval gregorian thirtyFirst.intervalSpec = .ok (.calendar .months 1) := by rfl

/-- From January to February nothing is lost. -/
theorem nextRun_february : nextRun gregorian gregorian.utc thirtyFirst (lastDay january) =
    .ok (some ((IntervalDelta.calendar .months 1).point (lastDay january) 1)) := by
  have hfirst : (IntervalDelta.calendar .months 1).First (lastDay january) (lastDay january) 1 :=
    first_lastDay monthDays_january 0
  have hmax : (IntervalDelta.calendar .months 1).point (lastDay january) 1 ≤ maxTime := by
    rw [point_lastDay monthDays_january]
    exact lastDay_le _ (by decide)
  refine (nextRun_anchored_iff rfl rfl rfl parseInterval_thirtyFirst (minTime_le_lastDay january)
    hfirst hmax ?_).mpr (kept_lastDay.mpr ?_)
  · unfold IntervalDelta.Within
    decide
  · decide

/-- Behind February, the 31st of March is the next point, but not the next run. -/
theorem nextRun_misses_march :
    (IntervalDelta.calendar .months 1).First (lastDay january) (lastDay (january + 1)) 2 ∧
      (IntervalDelta.calendar .months 1).point (lastDay january) 2 = lastDay (january + 2) ∧
      lastDay (january + 2) ≤ maxTime ∧
      nextRun gregorian gregorian.utc thirtyFirst (lastDay (january + 1)) ≠
        .ok (some (lastDay (january + 2))) := by
  have hpoint := point_lastDay monthDays_january 2
  have hfirst := first_lastDay monthDays_january 1
  have hmax : lastDay (january + 2) ≤ maxTime := lastDay_le _ (by decide)
  refine ⟨hfirst, hpoint, hmax, fun hnext => ?_⟩
  rw [nextRun_anchored rfl (by decide) rfl, map_some_eq_ok,
    stepInterval_calendar parseInterval_thirtyFirst, ← hpoint] at hnext
  rw [← hpoint] at hmax
  have hkept := (walk_calendar_iff (by decide) (minTime_le_lastDay january) hfirst hmax
    (by decide)).mp hnext
  exact absurd (kept_lastDay.mp hkept) (by decide)

end CwStation.Scheduler
