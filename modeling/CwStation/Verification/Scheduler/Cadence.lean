import CwStation.Model.Schedules

/-! # The next run lies ahead -/

namespace CwStation.Scheduler

open Tasks (Time seconds)

variable {lib : Libraries} {c : Cadence} {after next : Time}

/-- What is documented of the libraries: a calendar addition and the next fire of a cron expression
go forward. -/
structure Libraries.Forward (lib : Libraries) : Prop where
  calendar : ∀ unit count t t', 0 < count → lib.addCalendar unit count t = some t' → t < t'
  cron : ∀ expr tz t t', lib.cronNext expr tz t = .ok t' → t < t'

/-! ### Intervals -/

def IntervalDelta.Positive : IntervalDelta → Prop
  | .fixed delta => 0 < delta
  | .calendar _ count => 0 < count

theorem intervalUnit_fixed_pos {s rest : Str} {length : Time}
    (h : intervalUnit s = some (.fixed length, rest)) : 0 < length := by
  unfold intervalUnit at h
  repeat' split at h
  all_goals simp_all
  all_goals
    obtain ⟨rfl, -⟩ := h
    decide

/-- What is accepted is no empty interval. -/
theorem parseInterval_pos {spec : Str} {delta : IntervalDelta}
    (h : parseInterval lib spec = .ok delta) : delta.Positive := by
  unfold parseInterval at h
  dsimp only at h
  split at h
  · cases h
  rename_i unit rest hunit
  split at h
  · cases h
  split at h
  · cases h
  split at h
  · cases h
  rename_i count _
  split at h
  · cases h
  rename_i hcount
  have hpos : 0 < count := Nat.pos_of_ne_zero hcount
  cases unit with
  | fixed length =>
    dsimp only at h
    split at h
    · cases h
      exact Int.mul_pos (intervalUnit_fixed_pos hunit) (Int.natCast_pos.mpr hpos)
    · cases h
  | calendar unit =>
    cases h
    exact hpos
  | longS => cases h

theorem inRange_eq {t t' : Time} (h : inRange t = some t') : t' = t := by
  unfold inRange at h
  split at h
  · cases h
    rfl
  · cases h

/-! ### The loop over a calendar interval -/

/-- Some of the first `n` periods passes `after`, or one of them is out of range before that. -/
def passes (add : Time → Option Time) (after : Time) : ℕ → Time → Bool
  | 0, t => after < t
  | n + 1, t => after < t || (add t).all fun t => passes add after n t

/-- The first period passes the instant that it begins at. -/
theorem passes_of_forward {add : Time → Option Time} {n : ℕ} (hn : n ≠ 0)
    (hadd : ∀ t, add after = some t → after < t) : passes add after n after = true := by
  obtain ⟨n, rfl⟩ := Nat.exists_eq_succ_of_ne_zero hn
  unfold passes
  cases h : add after with
  | none => simp
  | some t =>
    have hlt := hadd t h
    cases n <;> simp [passes, hlt]

/-- The loop gives an instant behind `after` just where one of its periods is. -/
theorem walk_gt_iff {add : Time → Option Time} {n : ℕ} {t : Time}
    (h : walk add after n t = .ok next) : after < next ↔ passes add after n t = true := by
  induction n generalizing t with
  | zero =>
    cases h
    simp [passes]
  | succ n ih =>
    unfold walk at h
    by_cases ht : after < t
    · rw [if_pos ht] at h
      cases h
      simp [passes, ht]
    · rw [if_neg ht] at h
      cases hadd : add t with
      | none => simp [hadd] at h
      | some t' =>
        simp only [hadd] at h
        simp [passes, ht, hadd, ih h]

/-- Where none of its periods passes `after`, the loop gives the last of them. -/
theorem walk_eq_iterate {add : Time → Option Time} (start : ℕ → Time) {m : ℕ}
    (hadd : ∀ k < m, add (start k) = some (start (k + 1))) (hle : ∀ k < m, start k ≤ after) :
    walk add after m (start 0) = .ok (start m) := by
  induction m generalizing start with
  | zero => rfl
  | succ m ih =>
    unfold walk
    rw [if_neg (not_lt.mpr (hle 0 (Nat.succ_pos m))), hadd 0 (Nat.succ_pos m)]
    exact ih (fun k => start (k + 1)) (fun k hk => hadd (k + 1) (by omega))
      fun k hk => hle (k + 1) (by omega)

/-- An anchored calendar interval passes `after` within its ten thousand periods. -/
def reaches (lib : Libraries) (c : Cadence) (after : Time) : Bool :=
  match c.scheduleType, c.anchorAt, parseInterval lib c.intervalSpec with
  | .interval, some anchor, .ok (.calendar unit count) =>
      passes (lib.addCalendar unit count) after maxSteps anchor
  | _, _, _ => true

/-! ### The next run -/

theorem nextRun_anchored {arith : Arithmetic} {anchor : Time} (htype : c.scheduleType = .interval)
    (hspec : c.intervalSpec ≠ []) (hanchor : c.anchorAt = some anchor) :
    nextRun lib arith c after = (stepInterval lib arith anchor c.intervalSpec after).map some := by
  simp [nextRun, htype, hspec, hanchor]

theorem stepInterval_calendar {arith : Arithmetic} {anchor : Time} {spec : Str}
    {unit : CalendarUnit} {count : ℕ} (hspec : parseInterval lib spec = .ok (.calendar unit count)) :
    stepInterval lib arith anchor spec after =
      walk (arith.addCalendar unit count) after maxSteps anchor := by
  simp only [stepInterval, hspec, bind, Except.bind]

theorem stepInterval_fixed_gt {anchor delta : Time} {spec : Str} (hdelta : 0 < delta)
    (hspec : parseInterval lib spec = .ok (.fixed delta))
    (h : stepInterval lib lib.utc anchor spec after = .ok next) : after < next := by
  simp only [stepInterval, hspec, bind, Except.bind] at h
  split at h
  · rename_i hfuture
    cases h
    exact hfuture
  · split at h
    · rename_i next' hadd
      cases h
      rw [inRange_eq hadd]
      have hsteps : after - anchor < ((after - anchor) / delta + 1) * delta :=
        Int.lt_ediv_add_one_mul_self (after - anchor) hdelta
      exact lt_of_lt_of_eq (sub_lt_iff_lt_add'.mp hsteps) rfl
    · cases h

/-- The next run of a row lies ahead, if its calendar interval gets there at all. -/
theorem nextRun_gt (hlib : lib.Forward) (hreaches : reaches lib c after = true)
    (h : nextRun lib lib.utc c after = .ok (some next)) : after < next := by
  unfold nextRun at h
  cases htype : c.scheduleType with
  | unknown name => simp [htype] at h
  | once =>
    simp only [htype] at h
    split at h
    · cases h
    · rename_i runAt _
      by_cases hrun : after < runAt
      · rw [if_pos hrun] at h
        cases h
        exact hrun
      · rw [if_neg hrun] at h
        cases h
  | cron =>
    simp only [htype] at h
    split at h
    · cases h
    cases htz : scheduleTz lib c.timezone with
    | error e => simp [htz, bind, Except.bind] at h
    | ok tz =>
      cases hnext : lib.cronNext c.cronExpression tz after with
      | error e => simp [htz, hnext, bind, Except.bind] at h
      | ok t =>
        simp only [htz, hnext, bind, Except.bind] at h
        cases h
        exact hlib.cron _ _ _ _ hnext
  | interval =>
    simp only [htype] at h
    split at h
    · cases h
    have hstep : ∀ {x : Except Failure Time}, x.map some = .ok (some next) → x = .ok next := by
      intro x hx
      cases x with
      | error e => cases hx
      | ok t =>
        cases hx
        rfl
    cases hspec : parseInterval lib c.intervalSpec with
    | error e =>
      cases hanchor : c.anchorAt <;>
        simp [hanchor, stepInterval, hspec, bind, Except.bind, Except.map] at h
    | ok delta =>
      have hpos := parseInterval_pos hspec
      cases hanchor : c.anchorAt with
      | none =>
        simp only [hanchor] at h
        cases delta with
        | fixed delta => exact stepInterval_fixed_gt hpos hspec (hstep h)
        | calendar unit count =>
          -- the first period behind `after` already passes it
          have hwalk := hstep h
          rw [stepInterval_calendar hspec] at hwalk
          rw [walk_gt_iff hwalk]
          exact passes_of_forward (by decide) fun t => hlib.calendar unit count after t hpos
      | some anchor =>
        simp only [hanchor] at h
        cases delta with
        | fixed delta => exact stepInterval_fixed_gt hpos hspec (hstep h)
        | calendar unit count =>
          have hwalk := hstep h
          rw [stepInterval_calendar hspec] at hwalk
          rw [walk_gt_iff hwalk]
          simpa [reaches, htype, hanchor, hspec, Libraries.utc] using hreaches

/-- Only a job that runs once has no next run, and its time has come. -/
theorem nextRun_none {arith : Arithmetic} (h : nextRun lib arith c after = .ok none) :
    c.scheduleType = .once ∧ ∃ runAt, c.runAt = some runAt ∧ runAt ≤ after := by
  unfold nextRun at h
  cases htype : c.scheduleType with
  | unknown name => simp [htype] at h
  | once =>
    refine ⟨rfl, ?_⟩
    simp only [htype] at h
    cases hrun : c.runAt with
    | none => simp [hrun] at h
    | some runAt =>
      refine ⟨runAt, rfl, not_lt.mp ?_⟩
      intro hlt
      simp [hrun, hlt] at h
  | cron =>
    simp only [htype] at h
    split at h
    · cases h
    cases htz : scheduleTz lib c.timezone with
    | error e => simp [htz, bind, Except.bind] at h
    | ok tz =>
      cases hnext : lib.cronNext c.cronExpression tz after <;>
        simp [htz, hnext, bind, Except.bind, pure, Except.pure] at h
  | interval =>
    have hstep : ∀ x : Except Failure Time, x.map some ≠ .ok none := by
      intro x
      cases x <;> simp [Except.map]
    simp only [htype] at h
    split at h
    · cases h
    · split at h <;> exact absurd h (hstep _)

/-- A job that runs once has no next run from its time on. -/
theorem nextRun_once {arith : Arithmetic} {runAt : Time} (htype : c.scheduleType = .once)
    (hrun : c.runAt = some runAt) (hle : runAt ≤ after) : nextRun lib arith c after = .ok none := by
  simp [nextRun, htype, hrun, not_lt.mpr hle]

end CwStation.Scheduler
