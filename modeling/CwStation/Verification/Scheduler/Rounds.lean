import CwStation.Verification.Scheduler.Ownership

/-! # What the round of a spec comes to

The round on a row in one formula: its wiring and its cadence, in the spelling of `save`, and the
cursor, where the round computes one. -/

namespace CwStation.Scheduler

open Tasks (Time seconds)
open Effects

variable {ω : Type} {lib : Libraries} {cal : Calendars} {s : Store ω} {spec : ScheduleSpec}
  {row row' : ScheduledJob}

/-! ### What a round makes of a row -/

/-- A canonical name is its own canonical name. -/
def NamesFixed (lib : Libraries) : Prop := ∀ name canonical,
  canonicalTimezone lib name = some canonical → canonicalTimezone lib canonical = some canonical

/-- A cursor that is computed at a moment; an invalid cadence has none. -/
def cursorAt (lib : Libraries) (arith : Arithmetic) (c : Cadence) (now : Time) :
    Except Failure (Option Time) :=
  match nextRun lib arith c now with
  | .error .config => .ok none
  | next => next

namespace ScheduleSpec

/-- The anchor of a spec, in the zone of a timezone. -/
def anchorIn (lib : Libraries) (cal : Calendars) (now : Time) (spec : ScheduleSpec) (timezone : Str) :
    Option (Time × Arithmetic) :=
  match scheduleTz lib timezone with
  | .error _ => none
  | .ok tz => resolveAnchor lib cal now spec.anchor tz

/-- The cadence that a spec tells a row; an operator's override stays. -/
def told (spec : ScheduleSpec) (anchor : Option (Time × Arithmetic)) (row : ScheduledJob) : Cadence :=
  if row.scheduleOverridden then row.cadence
  else { spec.cadence row with anchorAt := (anchor.map Prod.fst).or row.cadence.anchorAt }

/-- The arithmetic of the anchor that a round finds or sets. -/
def arithmetic (lib : Libraries) (spec : ScheduleSpec) (anchor : Option (Time × Arithmetic))
    (row : ScheduledJob) : Arithmetic :=
  if row.cadence.anchorAt = (spec.told anchor row).anchorAt then lib.utc
  else (anchor.map Prod.snd).getD lib.utc

/-- The task of a spec is not that of the row, or a retirement ends. -/
def rewires (spec : ScheduleSpec) (row : ScheduledJob) : Bool :=
  row.taskPath ≠ spec.taskPath || row.kwargs ≠ spec.kwargs || row.autoRetired

/-- A round computes a cursor: for a cadence that is told anew, for a row without a cursor, and where
it saves a row whose timezone is not as `save` spells it. -/
def reseeds (lib : Libraries) (spec : ScheduleSpec) (anchor : Option (Time × Arithmetic))
    (row : ScheduledJob) : Bool :=
  (row.enabled || row.autoRetired) &&
    (spec.told anchor row ≠ row.cadence || row.nextRunAt.isNone ||
      spec.rewires row && row.cadence.normalized lib ≠ row.cadence)

/-- A row behind the round of a spec, but for its cursor: `save` spells a timezone only where it
writes it. -/
def settled (lib : Libraries) (spec : ScheduleSpec) (anchor : Option (Time × Arithmetic))
    (row : ScheduledJob) : ScheduledJob :=
  let told := spec.told anchor row
  { row with
    taskPath := spec.taskPath
    kwargs := spec.kwargs
    cadence := if row.cadence.timezone = told.timezone then told else told.normalized lib
    enabled := row.enabled || row.autoRetired
    autoRetired := false }

/-- The round of a spec on its row. -/
def round (lib : Libraries) (cal : Calendars) (now : Time) (spec : ScheduleSpec) (row : ScheduledJob) :
    Except Failure ScheduledJob :=
  (scheduleTz lib row.cadence.timezone).bind fun _ =>
    let anchor := spec.anchorIn lib cal now row.cadence.timezone
    if spec.reseeds lib anchor row then
      (cursorAt lib (spec.arithmetic lib anchor row) (spec.told anchor row) now).map fun next =>
        { spec.settled lib anchor row with nextRunAt := next }
    else .ok (spec.settled lib anchor row)

/-- The row that `get_or_create` makes of a spec. -/
def made (lib : Libraries) (now : Time) (spec : ScheduleSpec) (pk : ℕ) : Except Failure ScheduledJob :=
  let c := (spec.row pk).cadence.normalized lib
  (cursorAt lib lib.utc c now).map fun next => { spec.row pk with cadence := c, nextRunAt := next }

end ScheduleSpec

/-! ### Timezones -/

section timezones

variable {arith : Arithmetic} {c c' : Cadence} {now : Time}

theorem scheduleTz_normalized (hlib : NamesFixed lib) (c : Cadence) :
    scheduleTz lib (c.normalized lib).timezone = scheduleTz lib c.timezone := by
  cases hname : canonicalTimezone lib c.timezone with
  | none => rw [Cadence.normalized, hname, Option.getD_none]
  | some name =>
    have hfixed := hlib _ _ hname
    have hne : ∀ {tz}, canonicalTimezone lib tz = some name → tz ≠ [] := by
      rintro tz htz rfl
      cases htz
    simp only [Cadence.normalized, hname, Option.getD_some, scheduleTz, hfixed, hne hname, hne hfixed,
      if_false]

/-- A timezone counts by its zone. -/
theorem cursorAt_congr {tz tz' : Str} (h : scheduleTz lib tz = scheduleTz lib tz') :
    cursorAt lib arith { c with timezone := tz } now =
      cursorAt lib arith { c with timezone := tz' } now := by
  simp only [cursorAt, nextRun, h]

theorem cursorAt_normalized (hlib : NamesFixed lib) :
    cursorAt lib arith (c.normalized lib) now = cursorAt lib arith c now :=
  cursorAt_congr (scheduleTz_normalized hlib c)

theorem normalized_normalized (hlib : NamesFixed lib) :
    (c.normalized lib).normalized lib = c.normalized lib := by
  cases hname : canonicalTimezone lib c.timezone with
  | none => simp only [Cadence.normalized, hname, Option.getD_none]
  | some name => simp only [Cadence.normalized, hname, Option.getD_some, hlib _ _ hname]

end timezones

/-! ### The refresh -/

section refresh

variable {anchor : Option (Time × Arithmetic)}

/-- A field in which a row differs from what it is to be. -/
def Field.stale (spec : ScheduleSpec) (told : Cadence) (row : ScheduledJob) : Field → Bool
  | .taskPath => row.taskPath ≠ spec.taskPath
  | .kwargs => row.kwargs ≠ spec.kwargs
  | .scheduleType => row.cadence.scheduleType ≠ told.scheduleType
  | .intervalSpec => row.cadence.intervalSpec ≠ told.intervalSpec
  | .cronExpression => row.cadence.cronExpression ≠ told.cronExpression
  | .runAt => row.cadence.runAt ≠ told.runAt
  | .timezone => row.cadence.timezone ≠ told.timezone
  | .anchorAt => row.cadence.anchorAt ≠ told.anchorAt
  | .enabled | .autoRetired => row.autoRetired
  | .nextRunAt => false

theorem followCode_eq (spec : ScheduleSpec) (row : ScheduledJob) :
    (followCode spec row).1 = { row with
      taskPath := spec.taskPath
      kwargs := spec.kwargs
      cadence := spec.told none row } ∧
    ∀ field, field ∈ (followCode spec row).2 ↔
      field.stale spec (spec.told none row) row = true ∧ field ≠ .enabled ∧ field ≠ .autoRetired := by
  have hfields : ∀ field, field ∈ (followCode spec row).2 ↔
      field.stale spec (spec.told none row) row = true ∧ field ≠ .enabled ∧ field ≠ .autoRetired := by
    obtain ⟨⟩ := row
    rename_i c _ _ _ _ _ overridden _ _ _ _ _
    obtain ⟨⟩ := c
    intro field
    cases overridden <;> cases field <;>
      simp [followCode, cadenceFields, Field.write, Field.stale, ScheduleSpec.told, ScheduleSpec.row,
        ScheduleSpec.cadence] <;>
      exact not_congr eq_comm
  refine ⟨?_, hfields⟩
  have hwritten : (followCode spec row).1 = writeFields (spec.row row.pk) (followCode spec row).2 row := rfl
  rw [hwritten, writeFields_eq]
  simp only [hfields]
  cases hoverridden : row.scheduleOverridden <;>
    simp [Field.stale, ScheduleSpec.told, ScheduleSpec.row, ScheduleSpec.cadence, hoverridden]

theorem unretire_eq (job : ScheduledJob) :
    (unretire job).1 = { job with enabled := job.enabled || job.autoRetired, autoRetired := false } ∧
    ∀ field, field ∈ (unretire job).2 ↔
      job.autoRetired = true ∧ (field = .enabled ∨ field = .autoRetired) := by
  cases hretired : job.autoRetired with
  | false =>
    simp only [unretire, hretired, Bool.false_eq_true, if_false, Bool.or_false, false_and,
      List.not_mem_nil, implies_true, and_true]
    rw [← hretired]
  | true => simp [unretire, hretired]

/-- What a refresh makes of a row, the arithmetic it leaves to the cursor, and what it has changed. -/
theorem refresh_eq (lib : Libraries) (anchor : Option (Time × Arithmetic)) (spec : ScheduleSpec)
    (row : ScheduledJob) :
    (refresh lib anchor spec row).1 = { row with
      taskPath := spec.taskPath
      kwargs := spec.kwargs
      cadence := spec.told anchor row
      enabled := row.enabled || row.autoRetired
      autoRetired := false } ∧
    (refresh lib anchor spec row).2.2 = spec.arithmetic lib anchor row ∧
    ∀ field, field ∈ (refresh lib anchor spec row).2.1 ↔
      field.stale spec (spec.told anchor row) row = true := by
  obtain ⟨hjob, hwiring⟩ := followCode_eq spec row
  -- the anchor is told where the row has another one, and is not an operator's
  have hanchor : followAnchor lib anchor (followCode spec row).1 =
      ({ (followCode spec row).1 with cadence := spec.told anchor row },
        if row.cadence.anchorAt = (spec.told anchor row).anchorAt then [] else [.anchorAt],
        spec.arithmetic lib anchor row) := by
    rw [hjob]
    cases anchor with
    | none =>
      cases hoverridden : row.scheduleOverridden <;>
        simp [followAnchor, ScheduleSpec.told, ScheduleSpec.arithmetic, ScheduleSpec.cadence, hoverridden]
    | some a =>
      cases hoverridden : row.scheduleOverridden with
      | true => simp [followAnchor, ScheduleSpec.told, ScheduleSpec.arithmetic, hoverridden]
      | false =>
        by_cases hsame : row.cadence.anchorAt = some a.1 <;>
          simp [followAnchor, ScheduleSpec.told, ScheduleSpec.arithmetic, ScheduleSpec.cadence,
            hoverridden, hsame]
  have htold : spec.told none row =
      { spec.told anchor row with anchorAt := row.cadence.anchorAt } := by
    cases hoverridden : row.scheduleOverridden <;>
      simp [ScheduleSpec.told, ScheduleSpec.cadence, hoverridden]
  obtain ⟨hrevived, hended⟩ :=
    unretire_eq { (followCode spec row).1 with cadence := spec.told anchor row }
  have hmarker : (followCode spec row).1.autoRetired = row.autoRetired := by rw [hjob]
  rw [htold] at hwiring
  simp only [refresh, hanchor]
  refine ⟨?_, trivial, ?_⟩
  · rw [hrevived, hjob]
  · intro field
    rw [List.mem_append, List.mem_append, hwiring, hended, hmarker]
    by_cases hsame : row.cadence.anchorAt = (spec.told anchor row).anchorAt <;>
      cases field <;> simp [Field.stale, hsame]

end refresh

/-! ### Saves -/

section saves

variable {anchor : Option (Time × Arithmetic)} {arith : Arithmetic} {job : ScheduledJob}
  {fields : List Field} {next : Option Time}

/-- What is written of a refreshed row settles it. -/
theorem writeFields_settled (lib : Libraries) (anchor : Option (Time × Arithmetic))
    (hfields : ∀ field ≠ .nextRunAt, (field ∈ fields ↔
      field.stale spec (spec.told anchor row) row = true))
    (next : Option Time) :
    writeFields { (refresh lib anchor spec row).1 with
        cadence := (spec.told anchor row).normalized lib, nextRunAt := next } fields row =
      { spec.settled lib anchor row with
        nextRunAt := if .nextRunAt ∈ fields then next else row.nextRunAt } := by
  have hmem : ∀ field : Field, field ≠ .nextRunAt → (field ∈ fields) =
      (field.stale spec (spec.told anchor row) row = true) := fun field h => propext (hfields field h)
  have hsame : ∀ {α : Type} [DecidableEq α] (a b : α), (if a = b then a else b) = b := by
    intro α _ a b
    exact ite_eq_right_iff.mpr id
  rw [writeFields_eq, (refresh_eq lib anchor spec row).1]
  simp only [hmem .taskPath nofun, hmem .kwargs nofun, hmem .scheduleType nofun,
    hmem .intervalSpec nofun, hmem .cronExpression nofun, hmem .runAt nofun, hmem .timezone nofun,
    hmem .anchorAt nofun, hmem .enabled nofun, hmem .autoRetired nofun]
  by_cases htz : row.cadence.timezone = (spec.told anchor row).timezone <;>
    cases hretired : row.autoRetired <;>
      simp [Field.stale, ScheduleSpec.settled, Cadence.normalized, hsame, htz, hretired]

theorem computeCursor_ok {c : Cadence} (h : cursorAt lib arith c s.clock = .ok next) :
    computeCursor lib arith c s = .ok next s := by
  refine (bind_of_ok (get_eq_ok s)).trans ?_
  rw [cursorAt] at h
  split at h
  · rename_i hnext
    cases h
    rw [hnext]
    rfl
  · rw [h]
    rfl

theorem computeCursor_error {c : Cadence} {e : Failure}
    (h : cursorAt lib arith c s.clock = .error e) : computeCursor lib arith c s = .error e s := by
  refine (bind_of_ok (get_eq_ok s)).trans ?_
  rw [cursorAt] at h
  split at h
  · cases h
  · rename_i hconfig
    cases e with
    | config => exact absurd h hconfig
    | uncaught =>
      rw [h]
      rfl

/-- A save that has no use for a cursor. -/
theorem saveFields_kept (hrow : s.job job.pk = some row)
    (hkept : job.enabled = false ∨ job.nextRunAt ≠ none ∧ row.cadence = job.cadence.normalized lib) :
    saveFields lib arith job fields s =
      .ok () (s.alter job.pk (writeFields { job with cadence := job.cadence.normalized lib } fields)) := by
  have hrun : saveFields lib arith job fields s = _ := bind_of_ok (get_eq_ok s)
  rw [hrun]
  dsimp only
  rw [if_neg]
  · rfl
  · rw [hrow]
    rcases hkept with hoff | ⟨hcursor, hsame⟩
    · simp [hoff]
    · simp [hcursor, hsame]

/-- A save that computes a cursor. -/
theorem saveFields_run (hrow : s.job job.pk = some row) (hon : job.enabled = true)
    (hmoved : job.nextRunAt = none ∨ row.cadence ≠ job.cadence.normalized lib) :
    saveFields lib arith job fields s =
      (computeCursor lib arith (job.cadence.normalized lib) >>= fun next =>
        set (s.alter job.pk (writeFields
          { job with cadence := job.cadence.normalized lib, nextRunAt := next }
          (fields ++ [.nextRunAt]))) : Sync ω Unit) s := by
  have hrun : saveFields lib arith job fields s = _ := bind_of_ok (get_eq_ok s)
  rw [hrun]
  dsimp only
  rw [if_pos]
  · rfl
  · rw [hrow]
    rcases hmoved with hcursor | hcadence
    · simp [hon, hcursor]
    · simp [hon, hcadence]

/-- A save of a job with a cursor that has been computed for it computes the same again, if any. -/
theorem saveFields_seeded (hlib : NamesFixed lib) (job : ScheduledJob) (fields : List Field)
    (hrow : s.job job.pk = some row)
    (hcursor : cursorAt lib arith job.cadence s.clock = .ok job.nextRunAt)
    (hmem : .nextRunAt ∈ fields) :
    saveFields lib arith job fields s =
      .ok () (s.alter job.pk (writeFields { job with cadence := job.cadence.normalized lib } fields)) := by
  by_cases hkept : job.enabled = false ∨ job.nextRunAt ≠ none ∧ row.cadence = job.cadence.normalized lib
  · exact saveFields_kept hrow hkept
  · rw [not_or, not_and_or, not_not, Bool.not_eq_false] at hkept
    rw [← cursorAt_normalized hlib] at hcursor
    rw [saveFields_run hrow hkept.1 hkept.2, bind_of_ok (computeCursor_ok hcursor)]
    have hwrite : writeFields { job with cadence := job.cadence.normalized lib }
        (fields ++ [.nextRunAt]) =
        writeFields { job with cadence := job.cadence.normalized lib } fields := by
      funext r
      simp [writeFields_eq, hmem]
    exact congrArg (fun f => EStateM.Result.ok () (s.alter job.pk f)) hwrite

end saves

/-! ### Rows in their places -/

section places

variable {name : Str}

/-- A row in the place of the one with its name. -/
def Store.put (s : Store ω) (row : ScheduledJob) : Store ω :=
  { s with jobs := Table.alter ScheduledJob.name row.name (fun _ => row) s.jobs }

theorem get_put (s : Store ω) (row : ScheduledJob) (name : Str) :
    Table.get ScheduledJob.name (s.put row).jobs name =
      if name = row.name then (Table.get ScheduledJob.name s.jobs row.name).map fun _ => row
      else Table.get ScheduledJob.name s.jobs name :=
  Table.get_alter_of fun _ _ => rfl

theorem alter_eq_put (htidy : Tidy s) (hrow : s.job row.pk = some row) {f : ScheduledJob → ScheduledJob}
    (hname : (f row).name = row.name) : s.alter row.pk f = s.put (f row) := by
  rw [Store.put, hname]
  exact congrArg (fun jobs => { s with jobs })
    (Table.alter_by htidy.pks htidy.names (Table.get_mem hrow) f)

/-- A row that is there is put where it is. -/
theorem put_self (htidy : Tidy s) (hrow : Table.get ScheduledJob.name s.jobs row.name = some row) :
    s.put row = s :=
  congrArg (fun jobs => { s with jobs }) (Table.alter_self htidy.names (Table.get_mem hrow))

end places

/-! ### Rounds -/

section rounds

variable {anchor : Option (Time × Arithmetic)}

theorem told_eq (hfresh : ∀ field, field ∈ cadenceFields ∨ field = .anchorAt →
      field.stale spec (spec.told anchor row) row = false) :
    spec.told anchor row = row.cadence := by
  have htype := hfresh .scheduleType (by decide)
  have hspec := hfresh .intervalSpec (by decide)
  have hcron := hfresh .cronExpression (by decide)
  have hrunAt := hfresh .runAt (by decide)
  have htz := hfresh .timezone (by decide)
  have hanchor := hfresh .anchorAt (by decide)
  simp only [Field.stale, ne_eq, decide_eq_false_iff_not, not_not] at htype hspec hcron hrunAt htz hanchor
  generalize spec.told anchor row = told at *
  obtain ⟨⟩ := told
  dsimp only at htype hspec hcron hrunAt htz hanchor
  rw [← htype, ← hspec, ← hcron, ← hrunAt, ← htz, ← hanchor]

/-- A refresh has changed the cadence where another one is told. -/
theorem changed_cadence (lib : Libraries) (anchor : Option (Time × Arithmetic)) (spec : ScheduleSpec)
    (row : ScheduledJob) :
    ((refresh lib anchor spec row).2.1.any fun field => field ∈ cadenceFields || field = .anchorAt) =
      decide (spec.told anchor row ≠ row.cadence) := by
  obtain ⟨-, -, hchanged⟩ := refresh_eq lib anchor spec row
  rw [Bool.eq_iff_iff, List.any_eq_true, decide_eq_true_eq]
  simp only [hchanged, Bool.or_eq_true, decide_eq_true_eq]
  constructor
  · rintro ⟨field, hstale, hcadence⟩ hsame
    cases field <;> simp [Field.stale, cadenceFields, hsame] at hstale hcadence
  · intro hne
    by_contra hfresh
    apply hne
    have hfield : ∀ field : Field, field ∈ cadenceFields ∨ field = .anchorAt →
        field.stale spec (spec.told anchor row) row = false := by
      intro field hcadence
      by_contra hstale
      exact hfresh ⟨field, Bool.eq_true_of_not_eq_false hstale, hcadence⟩
    exact told_eq hfield

/-- A refresh has changed something where it tells another cadence or the task is another one. -/
theorem changed_ne_nil (lib : Libraries) (anchor : Option (Time × Arithmetic)) (spec : ScheduleSpec)
    (row : ScheduledJob) : (refresh lib anchor spec row).2.1 ≠ [] ↔
      spec.told anchor row ≠ row.cadence ∨ spec.rewires row = true := by
  obtain ⟨-, -, hchanged⟩ := refresh_eq lib anchor spec row
  have hcadence := changed_cadence lib anchor spec row
  rw [Bool.eq_iff_iff, List.any_eq_true, decide_eq_true_eq] at hcadence
  rw [← hcadence]
  constructor
  · intro hne
    obtain ⟨field, hmem⟩ := List.exists_mem_of_ne_nil _ hne
    have hstale := (hchanged field).mp hmem
    cases field with
    | taskPath => exact .inr (Bool.or_eq_true_iff.mpr (.inl (Bool.or_eq_true_iff.mpr (.inl hstale))))
    | kwargs => exact .inr (Bool.or_eq_true_iff.mpr (.inl (Bool.or_eq_true_iff.mpr (.inr hstale))))
    | enabled | autoRetired => exact .inr (Bool.or_eq_true_iff.mpr (.inr hstale))
    | nextRunAt => cases hstale
    | _ => exact .inl ⟨_, hmem, by decide⟩
  · rintro (⟨field, hmem, -⟩ | hrewires)
    · exact List.ne_nil_of_mem hmem
    · simp only [ScheduleSpec.rewires, Bool.or_eq_true, or_assoc] at hrewires
      rcases hrewires with hpath | hkwargs | hretired
      · exact List.ne_nil_of_mem ((hchanged .taskPath).mpr hpath)
      · exact List.ne_nil_of_mem ((hchanged .kwargs).mpr hkwargs)
      · exact List.ne_nil_of_mem ((hchanged .enabled).mpr hretired)

/-- What the round of a spec comes to: its row in its place, or what it raises. -/
def Store.comes (s : Store ω) : Except Failure ScheduledJob → EStateM.Result Failure (Store ω) Unit
  | .ok row => .ok () (s.put row)
  | .error e => .error e s

/-- A row whose round writes no cursor. -/
theorem put_settled (lib : Libraries) (htidy : Tidy s) (hrow : s.job row.pk = some row) {fields : List Field}
    (hfields : ∀ field, field ∈ fields ↔ field.stale spec (spec.told anchor row) row = true)
    (next : Option Time) :
    s.alter row.pk (writeFields { (refresh lib anchor spec row).1 with
      cadence := (spec.told anchor row).normalized lib, nextRunAt := next } fields) =
      s.put (spec.settled lib anchor row) := by
  have hwritten := writeFields_settled lib anchor (fun field _ => hfields field) next
  have hnone : Field.nextRunAt ∉ fields := fun hmem => nomatch (hfields _).mp hmem
  rw [if_neg hnone] at hwritten
  rw [alter_eq_put htidy hrow (writeFields_name _ _ _), hwritten]
  rfl

/-- A row whose round writes a cursor. -/
theorem put_seeded (lib : Libraries) (htidy : Tidy s) (hrow : s.job row.pk = some row) {fields : List Field}
    (hfields : ∀ field, field ∈ fields ↔ field.stale spec (spec.told anchor row) row = true)
    (next : Option Time) :
    s.alter row.pk (writeFields { (refresh lib anchor spec row).1 with
      cadence := (spec.told anchor row).normalized lib, nextRunAt := next } (fields ++ [.nextRunAt])) =
      s.put { spec.settled lib anchor row with nextRunAt := next } := by
  have hmem : ∀ field ≠ Field.nextRunAt, (field ∈ fields ++ [.nextRunAt] ↔
      field.stale spec (spec.told anchor row) row = true) := by
    intro field hne
    rw [List.mem_append, hfields, List.mem_singleton, or_iff_left hne]
  have hwritten := writeFields_settled lib anchor hmem next
  rw [if_pos (List.mem_append_right _ List.mem_cons_self)] at hwritten
  rw [alter_eq_put htidy hrow (writeFields_name _ _ _), hwritten]

/-- When a round computes a cursor, in terms of what its refresh has changed. -/
theorem reseeds_iff (lib : Libraries) (anchor : Option (Time × Arithmetic)) (spec : ScheduleSpec)
    (row : ScheduledJob) : spec.reseeds lib anchor row = true ↔
      (row.enabled || row.autoRetired) = true ∧ (spec.told anchor row ≠ row.cadence ∨
        row.nextRunAt = none ∨
        (refresh lib anchor spec row).2.1 ≠ [] ∧ row.cadence ≠ (spec.told anchor row).normalized lib) := by
  rw [changed_ne_nil, ScheduleSpec.reseeds, Bool.and_eq_true]
  refine and_congr_right fun _ => ?_
  by_cases hsame : spec.told anchor row = row.cadence
  · simp [hsame, ne_comm (a := row.cadence)]
  · simp [hsame]

/-- The round of a spec is that of its refresh, whose fields are saved with a cursor or without. -/
theorem syncRow_round (hlib : NamesFixed lib) (cal : Calendars) (spec : ScheduleSpec) (htidy : Tidy s)
    (hrow : s.job row.pk = some row) :
    syncRow lib cal spec row s = s.comes (spec.round lib cal s.clock row) := by
  cases htz : scheduleTz lib row.cadence.timezone with
  | error e =>
    have hround : spec.round lib cal s.clock row = .error e := by
      rw [ScheduleSpec.round, htz]
      rfl
    rw [hround]
    exact (bind_of_ok (get_eq_ok s)).trans (bind_of_error (ofExcept_error htz s))
  | ok tz =>
    have hin : spec.anchorIn lib cal s.clock row.cadence.timezone =
        resolveAnchor lib cal s.clock spec.anchor tz := by rw [ScheduleSpec.anchorIn, htz]
    cases hfresh : refresh lib (resolveAnchor lib cal s.clock spec.anchor tz) spec row with
    | mk job rest =>
      obtain ⟨changed, arith⟩ := rest
      have hrun := syncRow_run htz hfresh
      rw [← hin] at hfresh
      rw [ScheduleSpec.round, htz, Except.bind]
      clear hin
      dsimp only
      generalize spec.anchorIn lib cal s.clock row.cadence.timezone = anchor at hfresh ⊢
      obtain ⟨hjob, harith, hchanged⟩ := refresh_eq lib anchor spec row
      have hcadence := changed_cadence lib anchor spec row
      have hreseeds := reseeds_iff lib anchor spec row
      have hsettled := put_settled lib htidy hrow hchanged
      have hseeded := put_seeded lib htidy hrow hchanged
      rw [hfresh] at hjob harith hcadence hreseeds hsettled hseeded
      dsimp only at hjob harith hcadence hreseeds hsettled hseeded
      have hjob' : s.job job.pk = some row := by
        rw [hjob]
        exact hrow
      have hpk : job.pk = row.pk := by rw [hjob]
      have hon : job.enabled = (row.enabled || row.autoRetired) := by rw [hjob]
      have htold : job.cadence = spec.told anchor row := by rw [hjob]
      have hnext : job.nextRunAt = row.nextRunAt := by rw [hjob]
      rw [hcadence, ← htold] at hrun
      rw [← htold, ← hnext, ← hon] at hreseeds
      rw [← htold, ← hpk] at hsettled hseeded
      rw [← harith, ← htold]
      by_cases hcomputes : (job.enabled && (decide (job.cadence ≠ row.cadence) ||
          job.nextRunAt.isNone)) = true
      · -- the round computes a cursor, and its save computes the same
        have hseeds : spec.reseeds lib anchor row = true := by
          simp only [Bool.and_eq_true, Bool.or_eq_true, decide_eq_true_eq,
            Option.isNone_iff_eq_none] at hcomputes
          exact hreseeds.mpr ⟨hcomputes.1, hcomputes.2.imp_right .inl⟩
        rw [if_pos hcomputes] at hrun
        rw [if_pos hseeds, hrun]
        cases hcursor : cursorAt lib arith job.cadence s.clock with
        | error e => exact bind_of_error (computeCursor_error hcursor)
        | ok next =>
          have hsaved := saveFields_seeded hlib { job with nextRunAt := next }
            (changed ++ [.nextRunAt]) hjob' hcursor
            (List.mem_append_right _ List.mem_cons_self)
          exact (bind_of_ok (computeCursor_ok hcursor)).trans
            (hsaved.trans (congrArg (EStateM.Result.ok ()) (hseeded next)))
      · rw [if_neg hcomputes] at hrun
        have hidle : job.enabled = true → job.cadence = row.cadence ∧ job.nextRunAt ≠ none := by
          simpa using hcomputes
        by_cases hseeds : spec.reseeds lib anchor row = true
        · -- the save finds a timezone that it spells otherwise
          obtain ⟨henabled, hmoved⟩ := hreseeds.mp hseeds
          obtain ⟨hsame, hcursor⟩ := hidle henabled
          obtain ⟨hchanges, hspelled⟩ :=
            (hmoved.resolve_left (not_not.mpr hsame)).resolve_left hcursor
          rw [if_pos hchanges] at hrun
          rw [if_pos hseeds, hrun, saveFields_run hjob' henabled (.inr hspelled),
            ← cursorAt_normalized hlib]
          cases hcursor : cursorAt lib arith (job.cadence.normalized lib) s.clock with
          | error e => exact bind_of_error (computeCursor_error hcursor)
          | ok next =>
            exact (bind_of_ok (computeCursor_ok hcursor)).trans
              (congrArg (EStateM.Result.ok ()) (hseeded next))
        · rw [if_neg hseeds, hrun]
          rw [hreseeds] at hseeds
          refine Eq.trans ?_ (congrArg (EStateM.Result.ok ()) (hsettled job.nextRunAt))
          by_cases hchanges : changed = []
          · have hsame : s.alter job.pk id = s := congrArg (fun jobs => { s with jobs }) Table.alter_id
            rw [hchanges, if_neg (not_not.mpr rfl)]
            exact congrArg (EStateM.Result.ok ()) hsame.symm
          · rw [if_pos hchanges]
            apply saveFields_kept hjob'
            cases henabled : job.enabled with
            | false => exact .inl rfl
            | true =>
              refine .inr ⟨(hidle henabled).2, ?_⟩
              by_contra hspelled
              exact hseeds ⟨henabled, .inr (.inr ⟨hchanges, hspelled⟩)⟩

end rounds

/-! ### Rows that a spec creates -/

section provided

variable {s₁ : Store ω}

/-- The row of a spec, found or created. -/
def Store.provide (lib : Libraries) (spec : ScheduleSpec) (s : Store ω) :
    Except Failure (Store ω × ScheduledJob) :=
  match Table.get ScheduledJob.name s.jobs spec.name with
  | some row => .ok (s, row)
  | none => (spec.made lib s.clock s.freshPk).map fun row => ({ s with jobs := s.jobs ++ [row] }, row)

/-- A row that is created is new, and is the row of its spec. -/
theorem made_spec {pk : ℕ} {now : Time} (h : spec.made lib now pk = .ok row) :
    row.pk = pk ∧ row.name = spec.name ∧
      ∃ next, cursorAt lib lib.utc ((spec.row pk).cadence.normalized lib) now = .ok next ∧
        row = { spec.row pk with
          cadence := (spec.row pk).cadence.normalized lib
          nextRunAt := next } := by
  rw [ScheduleSpec.made] at h
  cases hcursor : cursorAt lib lib.utc ((spec.row pk).cadence.normalized lib) now with
  | error e =>
    rw [hcursor] at h
    cases h
  | ok next =>
    rw [hcursor] at h
    obtain rfl := Except.ok.inj h
    exact ⟨rfl, rfl, next, rfl, rfl⟩

theorem provide_spec (htidy : Tidy s) (h : s.provide lib spec = .ok (s₁, row)) :
    Tidy s₁ ∧ s₁.clock = s.clock ∧ Table.get ScheduledJob.name s₁.jobs spec.name = some row ∧
      ∀ name ≠ spec.name, Table.get ScheduledJob.name s₁.jobs name =
        Table.get ScheduledJob.name s.jobs name := by
  rw [Store.provide] at h
  cases hrow : Table.get ScheduledJob.name s.jobs spec.name with
  | some r =>
    rw [hrow] at h
    obtain ⟨rfl, rfl⟩ := Prod.mk.inj (Except.ok.inj h)
    exact ⟨htidy, rfl, hrow, fun _ _ => rfl⟩
  | none =>
    rw [hrow] at h
    cases hmade : spec.made lib s.clock s.freshPk with
    | error e =>
      rw [hmade] at h
      cases h
    | ok r =>
      rw [hmade] at h
      obtain ⟨rfl, rfl⟩ := Prod.mk.inj (Except.ok.inj h)
      obtain ⟨hpk, hname, -⟩ := made_spec hmade
      refine ⟨⟨htidy.pks.append ?_, htidy.names.append ?_⟩, rfl, ?_, ?_⟩
      · rw [hpk]
        exact freshPk_free s
      · rw [hname]
        exact hrow
      · rw [Table.get_append, hrow, Option.none_or, if_pos hname]
      · intro name hne
        exact Table.get_append_of_ne r (hname ▸ hne.symm)

/-- The round of a spec on the row that it has created. -/
theorem round_made (hlib : NamesFixed lib) (cal : Calendars) {pk : ℕ} {now : Time}
    (h : spec.made lib now pk = .ok row) :
    spec.round lib cal now row = (scheduleTz lib row.cadence.timezone).bind fun _ =>
      let anchor := spec.anchorIn lib cal now row.cadence.timezone
      (cursorAt lib (spec.arithmetic lib anchor row) (spec.told anchor row) now).map fun next =>
        { row with cadence := (spec.told anchor row).normalized lib, nextRunAt := next } := by
  obtain ⟨-, -, first, hfirst, hrow⟩ := made_spec h
  have hcadence : row.cadence = (spec.row pk).cadence.normalized lib := by rw [hrow]
  have hnext : row.nextRunAt = first := by rw [hrow]
  rw [ScheduleSpec.round]
  congr 1
  funext _
  generalize spec.anchorIn lib cal now row.cadence.timezone = anchor
  dsimp only
  have hsettled : spec.settled lib anchor row =
      { row with cadence := (spec.told anchor row).normalized lib } := by
    have hspelled : (if row.cadence.timezone = (spec.told anchor row).timezone then spec.told anchor row
        else (spec.told anchor row).normalized lib) = (spec.told anchor row).normalized lib := by
      have htold : (spec.told anchor row).timezone = spec.timezone := by
        rw [hrow]
        rfl
      have hspelling : row.cadence.timezone = ((spec.told anchor row).normalized lib).timezone := by
        rw [hcadence, Cadence.normalized, Cadence.normalized, htold]
        rfl
      split
      · rename_i hsame
        rw [Cadence.normalized] at hspelling ⊢
        dsimp only at hspelling
        rw [← hspelling, hsame]
      · rfl
    rw [ScheduleSpec.settled, hspelled, hrow]
    rfl
  rw [hsettled]
  by_cases hseeds : spec.reseeds lib anchor row = true
  · rw [if_pos hseeds]
  · rw [if_neg hseeds]
    have hsame : spec.told anchor row = row.cadence := by
      by_contra hne
      have hon : row.enabled = true := by
        rw [hrow]
        rfl
      exact hseeds (by simp [ScheduleSpec.reseeds, hon, hne])
    have harith : spec.arithmetic lib anchor row = lib.utc := by
      rw [ScheduleSpec.arithmetic, hsame, if_pos rfl]
    rw [harith, hsame, hcadence, hfirst, normalized_normalized hlib, ← hcadence]
    exact congrArg Except.ok (by rw [← hnext])

theorem createJob_ok (h : spec.made lib s.clock s.freshPk = .ok row) :
    createJob lib spec s = .ok row { s with jobs := s.jobs ++ [row] } := by
  obtain ⟨-, -, next, hcursor, rfl⟩ := made_spec h
  exact (bind_of_ok (get_eq_ok s)).trans (bind_of_ok (computeCursor_ok hcursor))

theorem createJob_error {e : Failure} (h : spec.made lib s.clock s.freshPk = .error e) :
    createJob lib spec s = .error e s := by
  rw [ScheduleSpec.made] at h
  cases hcursor : cursorAt lib lib.utc ((spec.row s.freshPk).cadence.normalized lib) s.clock with
  | ok next =>
    rw [hcursor] at h
    cases h
  | error e' =>
    rw [hcursor] at h
    cases h
    exact (bind_of_ok (get_eq_ok s)).trans (bind_of_error (computeCursor_error hcursor))

/-- What a spec tells the row that it has created. -/
theorem told_made {pk : ℕ} {now : Time} (h : spec.made lib now pk = .ok row)
    (anchor : Option (Time × Arithmetic)) :
    (spec.told anchor row).normalized lib =
        anchor.elim row.cadence (fun a => { row.cadence with anchorAt := some a.1 }) ∧
      spec.arithmetic lib anchor row = anchor.elim lib.utc Prod.snd := by
  obtain ⟨-, -, next, -, rfl⟩ := made_spec h
  cases anchor <;> exact ⟨rfl, rfl⟩

/-- The round of a spec without a row, behind the creation. -/
theorem syncNew_run (cal : Calendars) {tz : Str} (hmade : spec.made lib s.clock s.freshPk = .ok row)
    (htz : scheduleTz lib row.cadence.timezone = .ok tz) :
    let anchor := spec.anchorIn lib cal s.clock row.cadence.timezone
    syncNew lib cal spec s =
      (do
        let next ← computeCursor lib (spec.arithmetic lib anchor row) ((spec.told anchor row).normalized lib)
        saveFields lib (spec.arithmetic lib anchor row) { row with
          cadence := (spec.told anchor row).normalized lib
          nextRunAt := next } [.anchorAt, .nextRunAt] : Sync ω Unit)
        { s with jobs := s.jobs ++ [row] } := by
  intro anchor
  have hrun : syncNew lib cal spec s = _ := (bind_of_ok (createJob_ok hmade)).trans
    ((bind_of_ok (get_eq_ok _)).trans (bind_of_ok (ofExcept_ok htz _)))
  have hin : anchor = resolveAnchor lib cal s.clock spec.anchor tz := by
    simp only [anchor, ScheduleSpec.anchorIn, htz]
  obtain ⟨htold, harith⟩ := told_made hmade anchor
  rw [hrun, htold, harith, hin]
  cases resolveAnchor lib cal s.clock spec.anchor tz <;> rfl

/-- A spec without a row creates it, and its round is that of the row. -/
theorem syncNew_round (hlib : NamesFixed lib) (cal : Calendars) 
    (hmade : spec.made lib s.clock s.freshPk = .ok row)
    (hs₁ : s₁ = { s with jobs := s.jobs ++ [row] }) (htidy : Tidy s₁) (hrow : s₁.job row.pk = some row) :
    syncNew lib cal spec s = s₁.comes (spec.round lib cal s.clock row) := by
  have hclock : s₁.clock = s.clock := by rw [hs₁]
  rw [round_made hlib cal hmade]
  cases htz : scheduleTz lib row.cadence.timezone with
  | error e =>
    subst hs₁
    exact (bind_of_ok (createJob_ok hmade)).trans
      ((bind_of_ok (get_eq_ok _)).trans (bind_of_error (ofExcept_error htz _)))
  | ok tz =>
    have hrun := syncNew_run cal hmade htz
    dsimp only at hrun
    rw [← hs₁] at hrun
    rw [hrun, Except.bind]
    generalize spec.anchorIn lib cal s.clock row.cadence.timezone = anchor
    dsimp only
    rw [← cursorAt_normalized hlib, ← hclock]
    cases hcursor : cursorAt lib (spec.arithmetic lib anchor row)
        ((spec.told anchor row).normalized lib) s₁.clock with
    | error e => exact bind_of_error (computeCursor_error hcursor)
    | ok next =>
      have hsaved := saveFields_seeded hlib { row with
        cadence := (spec.told anchor row).normalized lib
        nextRunAt := next } [.anchorAt, .nextRunAt] hrow hcursor
        (List.mem_cons_of_mem _ List.mem_cons_self)
      refine (bind_of_ok (computeCursor_ok hcursor)).trans (hsaved.trans ?_)
      have hanchored : { row.cadence with anchorAt := ((spec.told anchor row).normalized lib).anchorAt } =
          (spec.told anchor row).normalized lib := by
        rw [(told_made hmade anchor).1]
        cases anchor <;> rfl
      have hput := alter_eq_put htidy hrow (writeFields_name { row with
        cadence := ((spec.told anchor row).normalized lib).normalized lib
        nextRunAt := next } row [.anchorAt, .nextRunAt])
      refine congrArg (EStateM.Result.ok ()) (hput.trans (congrArg s₁.put ?_))
      exact congrArg (fun c => { row with cadence := c, nextRunAt := next }) hanchored

theorem syncSpec_unprovided (cal : Calendars) {e : Failure} (h : s.provide lib spec = .error e) :
    syncSpec lib cal spec s = .error e s := by
  rw [Store.provide] at h
  cases hrow : Table.get ScheduledJob.name s.jobs spec.name with
  | some row =>
    rw [hrow] at h
    cases h
  | none =>
    rw [hrow] at h
    cases hmade : spec.made lib s.clock s.freshPk with
    | ok row =>
      rw [hmade] at h
      cases h
    | error e' =>
      rw [hmade] at h
      cases h
      exact (syncSpec_none hrow).trans (bind_of_error (createJob_error hmade))

/-- The round of a spec is that of its row, found or created. -/
theorem syncSpec_provided (hlib : NamesFixed lib) (cal : Calendars) (htidy : Tidy s)
    (h : s.provide lib spec = .ok (s₁, row)) :
    syncSpec lib cal spec s = s₁.comes (spec.round lib cal s.clock row) := by
  obtain ⟨htidy₁, hclock, hget, -⟩ := provide_spec htidy h
  have hjob : s₁.job row.pk = some row := Table.get_of_mem htidy₁.pks (Table.get_mem hget)
  rw [Store.provide] at h
  cases hrow : Table.get ScheduledJob.name s.jobs spec.name with
  | some r =>
    rw [hrow] at h
    obtain ⟨rfl, rfl⟩ := Prod.mk.inj (Except.ok.inj h)
    exact (syncSpec_some hrow).trans (syncRow_round hlib cal spec htidy hjob)
  | none =>
    rw [hrow] at h
    cases hmade : spec.made lib s.clock s.freshPk with
    | error e =>
      rw [hmade] at h
      cases h
    | ok r =>
      rw [hmade] at h
      obtain ⟨hs₁, rfl⟩ := Prod.mk.inj (Except.ok.inj h)
      exact (syncSpec_none hrow).trans (syncNew_round hlib cal hmade hs₁.symm htidy₁ hjob)

end provided

end CwStation.Scheduler
