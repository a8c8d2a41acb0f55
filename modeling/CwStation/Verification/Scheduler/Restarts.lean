import CwStation.Verification.Scheduler.Rounds

/-! # The second sync

A sync, and another one of the same specs behind it: when it leaves every row as it is. -/

namespace CwStation.Scheduler

open Tasks (Time seconds)
open Effects

variable {ω : Type} {lib : Libraries} {cal : Calendars} {s : Store ω} {spec : ScheduleSpec}
  {row row' : ScheduledJob}

/-! ### A second round -/

section again

variable {t₁ t₂ : Time} {row'' : ScheduledJob} {anchor anchor' : Option (Time × Arithmetic)}

/-- A spec gives a row another timezone, in a spelling that `save` does not leave. -/
def ScheduleSpec.respells (lib : Libraries) (spec : ScheduleSpec) (row : ScheduledJob) : Bool :=
  !row.scheduleOverridden && row.cadence.timezone ≠ spec.timezone &&
    (canonicalTimezone lib spec.timezone).any fun name => name ≠ spec.timezone

/-- A second round finds the anchor that the first one leaves, and where it computes a cursor again it
comes to the one that the first has computed. -/
def ScheduleSpec.steady (lib : Libraries) (cal : Calendars) (t₁ t₂ : Time) (spec : ScheduleSpec)
    (row : ScheduledJob) : Bool :=
  let anchor := spec.anchorIn lib cal t₁ row.cadence.timezone
  let told := spec.told anchor row
  let seed := cursorAt lib (spec.arithmetic lib anchor row) told t₁
  (row.scheduleOverridden ||
      (spec.anchorIn lib cal t₂ spec.timezone).all fun a => told.anchorAt = some a.1) &&
    (!(spec.reseeds lib anchor row && (spec.respells lib row || seed = .ok none)) ||
      cursorAt lib lib.utc told t₂ = seed)

/-- A round that returns settles its row, with a cursor or without. -/
theorem round_eq_ok {now : Time} (h : spec.round lib cal now row = .ok row') :
    let anchor := spec.anchorIn lib cal now row.cadence.timezone
    (spec.reseeds lib anchor row = true ∧ ∃ next,
      cursorAt lib (spec.arithmetic lib anchor row) (spec.told anchor row) now = .ok next ∧
        row' = { spec.settled lib anchor row with nextRunAt := next }) ∨
    spec.reseeds lib anchor row = false ∧ row' = spec.settled lib anchor row := by
  intro anchor
  rw [ScheduleSpec.round] at h
  cases htz : scheduleTz lib row.cadence.timezone with
  | error e =>
    rw [htz] at h
    cases h
  | ok tz =>
    rw [htz, Except.bind] at h
    dsimp only at h
    split at h
    · rename_i hseeds
      cases hcursor : cursorAt lib (spec.arithmetic lib anchor row) (spec.told anchor row) now with
      | error e =>
        rw [hcursor] at h
        cases h
      | ok next =>
        rw [hcursor] at h
        exact .inl ⟨hseeds, next, rfl, (Except.ok.inj h).symm⟩
    · rename_i hseeds
      exact .inr ⟨Bool.eq_false_of_not_eq_true hseeds, (Except.ok.inj h).symm⟩

theorem settled_anchorAt (lib : Libraries) (spec : ScheduleSpec) (anchor : Option (Time × Arithmetic))
    (row : ScheduledJob) :
    (spec.settled lib anchor row).cadence.anchorAt = (spec.told anchor row).anchorAt := by
  rw [ScheduleSpec.settled]
  dsimp only
  split <;> rfl

/-- What a spec tells a row again, where the anchor has not moved. -/
theorem told_again (hoverridden : row'.scheduleOverridden = row.scheduleOverridden)
    (hcadence : row'.cadence = (spec.settled lib anchor row).cadence)
    (hanchor : row.scheduleOverridden = true ∨
      ∀ a ∈ anchor', (spec.told anchor row).anchorAt = some a.1) :
    spec.told anchor' row' = spec.told anchor row := by
  have hset : row'.cadence.anchorAt = (spec.told anchor row).anchorAt := by
    rw [hcadence, settled_anchorAt]
  cases htaken : row.scheduleOverridden with
  | true =>
    have htold : spec.told anchor row = row.cadence := by rw [ScheduleSpec.told, if_pos htaken]
    rw [ScheduleSpec.told, if_pos (hoverridden.trans htaken), hcadence, ScheduleSpec.settled]
    dsimp only
    rw [htold, if_pos rfl]
  | false =>
    have hfree : ¬row.scheduleOverridden = true := by simp [htaken]
    have hsame : (anchor'.map Prod.fst).or row'.cadence.anchorAt = (spec.told anchor row).anchorAt := by
      cases anchor' with
      | none => exact hset
      | some a => exact ((hanchor.resolve_left hfree) a rfl).symm
    rw [ScheduleSpec.told, if_neg (hoverridden ▸ hfree), hsame, ScheduleSpec.told, if_neg hfree]
    rfl

/-- The timezone of a row behind a round is that of its spec. -/
theorem settled_zone (hlib : NamesFixed lib) :
    scheduleTz lib (spec.settled lib anchor row).cadence.timezone =
      scheduleTz lib (spec.told anchor row).timezone := by
  rw [ScheduleSpec.settled]
  dsimp only
  split
  · rfl
  · exact scheduleTz_normalized hlib _

theorem respells_iff (anchor : Option (Time × Arithmetic)) : spec.respells lib row = true ↔
    row.cadence.timezone ≠ (spec.told anchor row).timezone ∧
      (spec.told anchor row).normalized lib ≠ spec.told anchor row := by
  cases htaken : row.scheduleOverridden with
  | true => simp [ScheduleSpec.respells, ScheduleSpec.told, htaken]
  | false =>
    have htold : (spec.told anchor row).timezone = spec.timezone := by
      rw [ScheduleSpec.told, htaken]
      rfl
    have hspelled : (spec.told anchor row).normalized lib ≠ spec.told anchor row ↔
        ((canonicalTimezone lib spec.timezone).any fun name => name ≠ spec.timezone) = true := by
      generalize spec.told anchor row = told at htold
      obtain ⟨⟩ := told
      dsimp only at htold
      subst htold
      cases hname : canonicalTimezone lib spec.timezone <;> simp [Cadence.normalized, hname]
    rw [htold, hspelled]
    simp [ScheduleSpec.respells, htaken]

/-- A row that a round has settled, with its cursor, is settled for a second one, where the anchor has
not moved. -/
theorem settled_again {next : Option Time}
    (hrow' : row' = { spec.settled lib anchor row with nextRunAt := next })
    (htold : spec.told anchor' row' = spec.told anchor row) :
    spec.settled lib anchor' row' = row' ∧ spec.arithmetic lib anchor' row' = lib.utc ∧
      spec.reseeds lib anchor' row' =
        ((row.enabled || row.autoRetired) && (spec.respells lib row || next.isNone)) := by
  have hcadence : row'.cadence = (spec.settled lib anchor row).cadence := by rw [hrow']
  have hspelled : (if row'.cadence.timezone = (spec.told anchor row).timezone then spec.told anchor row
      else (spec.told anchor row).normalized lib) = row'.cadence := by
    rw [hcadence, ScheduleSpec.settled]
    dsimp only
    by_cases hsame : row.cadence.timezone = (spec.told anchor row).timezone
    · rw [if_pos hsame, if_pos rfl]
    · rw [if_neg hsame]
      split
      · rename_i hspelled
        generalize spec.told anchor row = told at hspelled ⊢
        obtain ⟨⟩ := told
        dsimp only [Cadence.normalized] at hspelled ⊢
        rw [hspelled]
      · rfl
  refine ⟨?_, ?_, ?_⟩
  · rw [ScheduleSpec.settled, htold, hspelled, hrow']
    dsimp only [ScheduleSpec.settled]
    rw [Bool.or_false]
  · rw [ScheduleSpec.arithmetic, htold, hcadence, settled_anchorAt, if_pos rfl]
  · have hon : (row'.enabled || row'.autoRetired) = (row.enabled || row.autoRetired) := by
      rw [hrow']
      exact Bool.or_false _
    have hrewires : spec.rewires row' = false := by
      rw [hrow']
      simp [ScheduleSpec.rewires, ScheduleSpec.settled]
    have hnext : row'.nextRunAt = next := by rw [hrow']
    have hdiffers : decide (spec.told anchor row ≠ row'.cadence) = spec.respells lib row := by
      rw [Bool.eq_iff_iff, decide_eq_true_eq, respells_iff anchor, hcadence, ScheduleSpec.settled]
      dsimp only
      split
      · rename_i hsame
        simp [hsame]
      · rename_i hdiff
        rw [ne_comm, and_iff_right hdiff]
    rw [ScheduleSpec.reseeds, hon, hrewires, hnext, htold, hdiffers, Bool.false_and, Bool.or_false]

/-- An anchor that moves is that of the row behind the round. -/
theorem settled_moved {a : Time × Arithmetic} (hfree : row'.scheduleOverridden = false)
    (hanchor : anchor' = some a) : (spec.settled lib anchor' row').cadence.anchorAt = some a.1 := by
  rw [settled_anchorAt, ScheduleSpec.told, hfree, hanchor]
  rfl

/-- A row whose round computes no cursor has no use for one behind it. -/
theorem not_reseeds (h : spec.reseeds lib anchor row = false) :
    ((row.enabled || row.autoRetired) && (spec.respells lib row || row.nextRunAt.isNone)) = false := by
  cases hon : (row.enabled || row.autoRetired) with
  | false => rfl
  | true =>
    rw [ScheduleSpec.reseeds, hon, Bool.true_and, Bool.or_eq_false_iff, Bool.or_eq_false_iff,
      decide_eq_false_iff_not, not_not] at h
    obtain ⟨⟨htold, hcursor⟩, -⟩ := h
    have hrespells : spec.respells lib row = false := by
      by_contra hrespells
      exact ((respells_iff anchor).mp (Bool.eq_true_of_not_eq_false hrespells)).1 (by rw [htold])
    rw [hrespells, hcursor]
    rfl

/-- A second round leaves what the first one leaves where the spec is steady. -/
theorem round_again (hlib : NamesFixed lib) (h : spec.round lib cal t₁ row = .ok row')
    (h' : spec.round lib cal t₂ row' = .ok row'') :
    row'' = row' ↔ spec.steady lib cal t₁ t₂ row = true := by
  set anchor := spec.anchorIn lib cal t₁ row.cadence.timezone with hanchor
  set anchor' := spec.anchorIn lib cal t₂ row'.cadence.timezone with hanchor'
  obtain ⟨next, hrow', hnext⟩ : ∃ next, row' = { spec.settled lib anchor row with nextRunAt := next } ∧
      (spec.reseeds lib anchor row = true ∧
          cursorAt lib (spec.arithmetic lib anchor row) (spec.told anchor row) t₁ = .ok next ∨
        spec.reseeds lib anchor row = false ∧ next = row.nextRunAt) := by
    rcases round_eq_ok h with ⟨hseeds, next, hcursor, hrow'⟩ | ⟨hseeds, hrow'⟩
    · exact ⟨next, hrow', .inl ⟨hseeds, hcursor⟩⟩
    · exact ⟨row.nextRunAt, hrow', .inr ⟨hseeds, rfl⟩⟩
  have hoverridden : row'.scheduleOverridden = row.scheduleOverridden := by
    rw [hrow']
    rfl
  have hcadence : row'.cadence = (spec.settled lib anchor row).cadence := by rw [hrow']
  -- the second round looks for its anchor in the zone of the spec
  have hzone : row.scheduleOverridden = false → anchor' = spec.anchorIn lib cal t₂ spec.timezone := by
    intro hfree
    have htz : scheduleTz lib row'.cadence.timezone = scheduleTz lib spec.timezone := by
      rw [hcadence, settled_zone hlib, ScheduleSpec.told, hfree]
      rfl
    rw [hanchor', ScheduleSpec.anchorIn, ScheduleSpec.anchorIn, htz]
  have hfirst : (row.scheduleOverridden || (spec.anchorIn lib cal t₂ spec.timezone).all fun a =>
      (spec.told anchor row).anchorAt = some a.1) = true ↔
      (row.scheduleOverridden = true ∨ ∀ a ∈ anchor', (spec.told anchor row).anchorAt = some a.1) := by
    cases hfree : row.scheduleOverridden with
    | true => simp
    | false => simp [hzone hfree, Option.all_eq_true]
  rw [ScheduleSpec.steady, ← hanchor]
  rw [Bool.and_eq_true, hfirst]
  by_cases hsame : row.scheduleOverridden = true ∨ ∀ a ∈ anchor', (spec.told anchor row).anchorAt = some a.1
  · have htold := told_again hoverridden hcadence hsame
    obtain ⟨hsettled, harith, hreseeds⟩ := settled_again hrow' htold
    rw [and_iff_right hsame]
    have hcursor' : row'.nextRunAt = next := by rw [hrow']
    rcases hnext with ⟨hseeds, hseed⟩ | ⟨hseeds, rfl⟩
    · have hon : (row.enabled || row.autoRetired) = true := by
        rw [ScheduleSpec.reseeds, Bool.and_eq_true] at hseeds
        exact hseeds.1
      have hagain : (spec.respells lib row || decide (Except.ok next = (.ok none : Except Failure (Option Time)))) =
          (spec.respells lib row || next.isNone) := by
        cases next <;> simp
      rw [hon, Bool.true_and] at hreseeds
      rw [hseeds, hseed, Bool.true_and, hagain, ← hreseeds]
      rcases round_eq_ok h' with ⟨hseeds', next', hcursor, hrow''⟩ | ⟨hseeds', hrow''⟩
      · rw [← hanchor', hsettled] at hrow''
        rw [← hanchor', harith, htold] at hcursor
        rw [hseeds', hcursor, hrow'']
        constructor
        · intro hkept
          have hnext : next' = next := (congrArg ScheduledJob.nextRunAt hkept).trans hcursor'
          simp [hnext]
        · intro hkept
          obtain rfl : next' = next := by simpa using hkept
          rw [← hcursor']
      · rw [← hanchor', hsettled] at hrow''
        rw [hrow'', hseeds']
        simp
    · have hquiet := hreseeds.trans (not_reseeds hseeds)
      rcases round_eq_ok h' with ⟨hseeds', -⟩ | ⟨-, hrow''⟩
      · exact absurd (hquiet.symm.trans hseeds') Bool.false_ne_true
      · rw [← hanchor', hsettled] at hrow''
        rw [hrow'', hseeds]
        simp
  · -- the anchor moves
    refine iff_of_false ?_ fun h => hsame h.1
    intro hkept
    rw [not_or, not_forall] at hsame
    obtain ⟨hfree, a, hmoved⟩ := hsame
    rw [Classical.not_imp] at hmoved
    have hset : row''.cadence = (spec.settled lib anchor' row').cadence := by
      rcases round_eq_ok h' with ⟨-, next', -, hrow''⟩ | ⟨-, hrow''⟩ <;> rw [hrow'']
    have hanchored : row''.cadence.anchorAt = some a.1 := by
      rw [hset]
      exact settled_moved (hoverridden.trans (Bool.eq_false_of_not_eq_true hfree)) hmoved.1
    rw [hkept, hcadence, settled_anchorAt] at hanchored
    exact hmoved.2 hanchored

end again

/-! ### The specs, once more -/

section specs

variable {specs : List ScheduleSpec} {s₁ : Store ω}

theorem round_row {now : Time} (h : spec.round lib cal now row = .ok row') :
    row'.pk = row.pk ∧ row'.name = row.name := by
  rcases round_eq_ok h with ⟨-, next, -, rfl⟩ | ⟨-, rfl⟩ <;> exact ⟨rfl, rfl⟩

/-- A spec finds the row of its round. -/
theorem get_round {now : Time} (hrow : Table.get ScheduledJob.name s.jobs spec.name = some row)
    (hround : spec.round lib cal now row = .ok row') :
    Table.get ScheduledJob.name (s.put row').jobs spec.name = some row' := by
  have hname := (round_row hround).2.trans (Table.key_of_get hrow)
  rw [get_put, if_pos hname.symm, hname, hrow, Option.map_some]

theorem syncSpec_tidy (htidy : Tidy s) {s' : Store ω} (h : syncSpec lib cal spec s = .ok () s') :
    Tidy s' := by
  rcases syncSpec_cases lib cal spec htidy with ⟨⟨e, s'', hraise, -⟩, -⟩ | ⟨s'', hended, hround⟩
  · cases h.symm.trans hraise
  · cases h.symm.trans hended
    exact hround.tidy htidy

/-- The row of a name that no spec has stays. -/
theorem syncSpecs_other (lib : Libraries) (cal : Calendars) (htidy : Tidy s) {name : Str}
    (hrow : Table.get ScheduledJob.name s.jobs name = some row)
    (hname : name ∉ specs.map ScheduleSpec.name) :
    Table.get ScheduledJob.name (endState (syncSpecs lib cal specs) s).jobs name = some row := by
  have hround := syncSpecs_round lib cal specs htidy
  obtain rfl := Table.key_of_get hrow
  obtain ⟨row', hrow', -, hsame⟩ :=
    hround.rows htidy row.pk row (Table.get_of_mem htidy.pks (Table.get_mem hrow))
  rw [hsame hname] at hrow'
  exact Table.get_of_mem (hround.tidy htidy).names (Table.get_mem hrow')

/-- A name that a row has keeps having one. -/
theorem syncSpecs_named (lib : Libraries) (cal : Calendars) (specs : List ScheduleSpec) (htidy : Tidy s)
    {name : Str} (hrow : Table.get ScheduledJob.name s.jobs name = some row) :
    Table.get ScheduledJob.name (endState (syncSpecs lib cal specs) s).jobs name ≠ none := by
  have hround := syncSpecs_round lib cal specs htidy
  obtain ⟨row', hrow', hserved⟩ :=
    hround.rows htidy row.pk row (Table.get_of_mem htidy.pks (Table.get_mem hrow))
  intro hnone
  exact Table.get_eq_none_iff.mp hnone row' (Table.get_mem hrow')
    (hserved.1.name.trans (Table.key_of_get hrow))

theorem provide_some (lib : Libraries)
    (hrow : Table.get ScheduledJob.name s.jobs spec.name = some row) :
    s.provide lib spec = .ok (s, row) := by
  rw [Store.provide, hrow]

theorem made_isOk (lib : Libraries) (spec : ScheduleSpec) (now : Time) (pk pk' : ℕ) :
    (spec.made lib now pk).isOk = (spec.made lib now pk').isOk := by
  rw [ScheduleSpec.made, ScheduleSpec.made]
  change ((cursorAt lib lib.utc ((spec.row pk').cadence.normalized lib) now).map _).isOk = _
  cases cursorAt lib lib.utc ((spec.row pk').cadence.normalized lib) now <;> rfl

/-- Where a row is missing, a spec is provided for if its row can be created. -/
theorem provide_isOk (hnone : Table.get ScheduledJob.name s.jobs spec.name = none) :
    (s.provide lib spec).isOk = (spec.made lib s.clock 0).isOk := by
  rw [made_isOk lib spec s.clock 0 s.freshPk, Store.provide, hnone]
  cases spec.made lib s.clock s.freshPk <;> rfl

/-! ### The retirement, once more -/

def ScheduledJob.retired (row : ScheduledJob) : ScheduledJob :=
  { row with enabled := false, autoRetired := true, nextRunAt := none }

theorem retireJobs_eq (lib : Libraries) (jobs : List ScheduledJob) (s : Store ω) :
    retireJobs lib jobs s = .ok () { s with
      jobs := s.jobs.map fun row =>
        if row.pk ∈ jobs.map ScheduledJob.pk then row.retired else row } := by
  induction jobs generalizing s with
  | nil => simp [retireJobs, pure, EStateM.pure]
  | cons job jobs ih =>
    have hsaved : saveFields lib lib.utc
        { job with enabled := false, autoRetired := true, nextRunAt := none }
        [.enabled, .autoRetired, .nextRunAt] s = .ok () (s.alter job.pk ScheduledJob.retired) := rfl
    rw [retireJobs, bind_of_ok hsaved, ih]
    refine congrArg (fun jobs => EStateM.Result.ok () { s with jobs }) ?_
    rw [Store.alter, Table.alter, List.map_map]
    apply List.map_congr_left
    intro row hrow
    by_cases hjob : row.pk = job.pk
    · by_cases hlater : row.retired.pk ∈ jobs.map ScheduledJob.pk
      · simp only [Function.comp_apply, List.map_cons, List.mem_cons, hjob, true_or, if_true,
          if_pos hlater]
        rfl
      · simp only [Function.comp_apply, List.map_cons, List.mem_cons, hjob, true_or, if_true,
          if_neg hlater]
    · simp only [Function.comp_apply, List.map_cons, List.mem_cons, hjob, false_or, if_false]

/-- The rows that a retirement is about. -/
def Store.retiring (s : Store ω) (specs : List ScheduleSpec) : List ScheduledJob :=
  if specs ≠ [] ∧ retirementIsPlausible (s.orphans specs) specs = true then s.orphans specs else []

theorem mem_orphans {row : ScheduledJob} : row ∈ s.orphans specs ↔
    row ∈ s.jobs ∧ row.source = .code ∧ row.enabled = true ∧ row.name ∉ specs.map ScheduleSpec.name := by
  simp [Store.orphans, liveNames, and_assoc]

theorem mem_retiring {row : ScheduledJob} (h : row ∈ s.retiring specs) : row ∈ s.orphans specs := by
  rw [Store.retiring] at h
  split at h
  · exact h
  · cases h

/-- A retirement returns. -/
theorem retire_eq (lib : Libraries) (specs : List ScheduleSpec) (s : Store ω) :
    retire lib specs s = .ok () { s with
      jobs := s.jobs.map fun row =>
        if row.pk ∈ (s.retiring specs).map ScheduledJob.pk then row.retired else row } := by
  have hrun : retire lib specs s = (if specs ≠ [] ∧
      retirementIsPlausible (s.orphans specs) specs = true then
      retireJobs lib (s.orphans specs) else pure () : Sync ω Unit) s := bind_of_ok (get_eq_ok s)
  rw [hrun, ← retireJobs_eq, Store.retiring]
  split <;> rfl

/-- A retirement is about no row of a spec. -/
theorem retire_other (htidy : Tidy s) {name : Str} (hname : name ∈ specs.map ScheduleSpec.name) :
    Table.get ScheduledJob.name (endState (retire lib specs) s).jobs name =
      Table.get ScheduledJob.name s.jobs name := by
  have hkeeps : ∀ row : ScheduledJob,
      (if row.pk ∈ (s.retiring specs).map ScheduledJob.pk then row.retired else row).name = row.name := by
    intro row
    split <;> rfl
  rw [endState_of_ok (retire_eq lib specs s)]
  refine (Table.get_map hkeeps).trans ?_
  cases hrow : Table.get ScheduledJob.name s.jobs name with
  | none => rfl
  | some row =>
    rw [Option.map_some, if_neg]
    intro hmem
    obtain ⟨orphan, horphan, hpk⟩ := List.mem_map.mp hmem
    obtain ⟨hjob, -, -, hgone⟩ := mem_orphans.mp (mem_retiring horphan)
    rw [htidy.pks.eq_of_key hjob (Table.get_mem hrow) hpk, Table.key_of_get hrow] at hgone
    exact hgone hname

/-- A retirement has nothing left to do after another one. -/
theorem retiring_again (lib : Libraries) (specs : List ScheduleSpec) (s : Store ω) (t : Time) :
    ({ endState (retire lib specs) s with clock := t } : Store ω).retiring specs = [] := by
  by_cases hplausible : specs ≠ [] ∧ retirementIsPlausible (s.orphans specs) specs = true
  · have horphans : ({ endState (retire lib specs) s with clock := t } : Store ω).orphans specs = [] := by
      apply List.eq_nil_iff_forall_not_mem.mpr
      intro row hrow
      obtain ⟨hjob, hcode, hon, hgone⟩ := mem_orphans.mp hrow
      rw [endState_of_ok (retire_eq lib specs s)] at hjob
      obtain ⟨r, hr, rfl⟩ := List.mem_map.mp hjob
      split at hcode
      · rename_i hmem
        rw [if_pos hmem] at hon
        cases hon
      · rename_i hmem
        rw [if_neg hmem] at hon hgone
        apply hmem
        rw [Store.retiring, if_pos hplausible]
        exact List.mem_map_of_mem (mem_orphans.mpr ⟨hr, hcode, hon, hgone⟩)
    rw [Store.retiring, horphans]
    exact ite_self []
  · have hsame : endState (retire lib specs) s = s := by
      rw [endState_of_ok (retire_eq lib specs s), Store.retiring, if_neg hplausible]
      simp
    rw [hsame, Store.retiring]
    exact if_neg hplausible

theorem retire_nothing (lib : Libraries) (h : s.retiring specs = []) :
    endState (retire lib specs) s = s := by
  rw [endState_of_ok (retire_eq lib specs s), h]
  simp

theorem eq_error_of_isOk {α : Type} {x : Except Failure α} (h : x.isOk = false) :
    ∃ e, x = .error e := by
  cases x with
  | error e => exact ⟨e, rfl⟩
  | ok a => cases h

/-! ### Syncs with nothing to do -/

/-- A row is as its spec has it, and so is its cursor where a round computes one. -/
def ScheduleSpec.current (lib : Libraries) (cal : Calendars) (now : Time) (spec : ScheduleSpec)
    (row : ScheduledJob) : Bool :=
  let anchor := spec.anchorIn lib cal now row.cadence.timezone
  spec.settled lib anchor row = row && (!spec.reseeds lib anchor row ||
    cursorAt lib (spec.arithmetic lib anchor row) (spec.told anchor row) now = .ok row.nextRunAt)

/-- As far as it does not raise, a sync of these specs finds every row, and finds it current, and it
has no row to retire. -/
def quiet (lib : Libraries) (cal : Calendars) (all : List ScheduleSpec) (s : Store ω) :
    List ScheduleSpec → Bool
  | [] => s.retiring all = []
  | spec :: specs =>
      match Table.get ScheduledJob.name s.jobs spec.name with
      | none => !(spec.made lib s.clock 0).isOk
      | some row => !(spec.round lib cal s.clock row).isOk ||
          spec.current lib cal s.clock row && quiet lib cal all s specs

theorem round_current {now : Time} (h : spec.round lib cal now row = .ok row') :
    row' = row ↔ spec.current lib cal now row = true := by
  rw [ScheduleSpec.current]
  rcases round_eq_ok h with ⟨hseeds, next, hcursor, hrow'⟩ | ⟨hseeds, hrow'⟩
  · rw [hseeds, hcursor, hrow']
    simp only [Bool.not_true, Bool.false_or, Bool.and_eq_true, decide_eq_true_eq, Except.ok.injEq]
    constructor
    · intro hsame
      have hnext : next = row.nextRunAt := congrArg ScheduledJob.nextRunAt hsame
      subst hnext
      exact ⟨hsame, rfl⟩
    · rintro ⟨hsettled, rfl⟩
      exact hsettled
  · rw [hseeds, hrow']
    simp

theorem syncSpecs_cons {s' : Store ω} (h : syncSpec lib cal spec s = .ok () s') :
    syncSpecs lib cal (spec :: specs) s = syncSpecs lib cal specs s' := bind_of_ok h

variable {all : List ScheduleSpec}

theorem quiet_none (hrow : Table.get ScheduledJob.name s.jobs spec.name = none) :
    quiet lib cal all s (spec :: specs) = !(s.provide lib spec).isOk := by
  rw [quiet, hrow, provide_isOk hrow]

theorem quiet_error {e : Failure} (hrow : Table.get ScheduledJob.name s.jobs spec.name = some row)
    (hround : spec.round lib cal s.clock row = .error e) :
    quiet lib cal all s (spec :: specs) = true := by
  rw [quiet, hrow]
  dsimp only
  rw [hround]
  rfl

theorem quiet_ok (hrow : Table.get ScheduledJob.name s.jobs spec.name = some row)
    (hround : spec.round lib cal s.clock row = .ok row') :
    quiet lib cal all s (spec :: specs) =
      (spec.current lib cal s.clock row && quiet lib cal all s specs) := by
  rw [quiet, hrow]
  dsimp only
  rw [hround]
  rfl

/-- A sync that has nothing to do leaves everything as it is. -/
theorem quiet_keeps (hlib : NamesFixed lib) (htidy : Tidy s) (h : quiet lib cal all s specs = true) :
    endState (syncSpecs lib cal specs) s = s ∧
      ∀ s', syncSpecs lib cal specs s = .ok () s' → s.retiring all = [] := by
  induction specs with
  | nil => exact ⟨rfl, fun _ _ => by simpa [quiet] using h⟩
  | cons spec specs ih =>
    cases hrow : Table.get ScheduledJob.name s.jobs spec.name with
    | none =>
      rw [quiet_none hrow, Bool.not_eq_true'] at h
      obtain ⟨e, hprovide⟩ := eq_error_of_isOk h
      have hraise := bind_of_error (f := fun _ => syncSpecs lib cal specs)
        (syncSpec_unprovided cal hprovide)
      exact ⟨endState_of_error hraise, fun s' hs' => (by cases hraise.symm.trans hs')⟩
    | some row =>
      have hspec := syncSpec_provided hlib cal htidy (provide_some lib hrow)
      cases hround : spec.round lib cal s.clock row with
      | error e =>
        rw [hround] at hspec
        have hraise := bind_of_error (f := fun _ => syncSpecs lib cal specs) hspec
        exact ⟨endState_of_error hraise, fun s' hs' => (by cases hraise.symm.trans hs')⟩
      | ok row' =>
        rw [quiet_ok hrow hround, Bool.and_eq_true] at h
        obtain rfl := (round_current hround).mpr h.1
        rw [hround, Store.comes, put_self htidy (Table.key_of_get hrow ▸ hrow)] at hspec
        rw [endState, syncSpecs_cons hspec, ← endState]
        exact ih h.2

/-- A sync that leaves the rows of its specs and has no row to retire has nothing to do. -/
theorem quiet_of_kept (hlib : NamesFixed lib) (htidy : Tidy s)
    (hspecs : (specs.map ScheduleSpec.name).Nodup)
    (hkept : ∀ name ∈ specs.map ScheduleSpec.name,
      Table.get ScheduledJob.name (endState (syncSpecs lib cal specs) s).jobs name =
        Table.get ScheduledJob.name s.jobs name)
    (hretiring : ∀ s', syncSpecs lib cal specs s = .ok () s' → s.retiring all = []) :
    quiet lib cal all s specs = true := by
  induction specs with
  | nil => simpa [quiet] using hretiring s rfl
  | cons spec specs ih =>
    rw [List.map_cons, List.nodup_cons] at hspecs
    have hmine := hkept spec.name List.mem_cons_self
    cases hrow : Table.get ScheduledJob.name s.jobs spec.name with
    | none =>
      rw [quiet_none hrow]
      cases hprovide : s.provide lib spec with
      | error e => rfl
      | ok provided =>
        -- a row that is created stays
        obtain ⟨s₁, row⟩ := provided
        obtain ⟨htidy₁, -, hmade, -⟩ := provide_spec htidy hprovide
        have hspec := syncSpec_provided hlib cal htidy hprovide
        rw [hrow] at hmine
        cases hround : spec.round lib cal s.clock row with
        | error e =>
          rw [hround] at hspec
          rw [syncSpecs, endState_of_error (bind_of_error hspec)] at hmine
          exact absurd (hmade.symm.trans hmine) (Option.some_ne_none _)
        | ok row' =>
          rw [hround] at hspec
          rw [endState, syncSpecs_cons hspec, ← endState] at hmine
          exact absurd hmine (syncSpecs_named lib cal specs (syncSpec_tidy htidy hspec)
            (get_round hmade hround))
    | some row =>
      have hspec := syncSpec_provided hlib cal htidy (provide_some lib hrow)
      cases hround : spec.round lib cal s.clock row with
      | error e => exact quiet_error hrow hround
      | ok row' =>
        rw [hround] at hspec
        have hlater := syncSpecs_other lib cal (syncSpec_tidy htidy hspec)
          (get_round hrow hround) hspecs.1
        rw [endState, syncSpecs_cons hspec, ← endState] at hkept hmine
        rw [syncSpecs_cons hspec] at hretiring
        rw [hlater, hrow] at hmine
        obtain rfl := Option.some.inj hmine
        rw [put_self htidy (Table.key_of_get hrow ▸ hrow)] at hkept hretiring
        rw [quiet_ok hrow hround, Bool.and_eq_true]
        exact ⟨(round_current hround).mp rfl,
          ih hspecs.2 (fun name hname => hkept name (List.mem_cons_of_mem _ hname)) hretiring⟩

theorem syncCodeJobs_error {e : Failure} {s' : Store ω} (h : syncSpecs lib cal specs s = .error e s') :
    syncCodeJobs lib cal specs s = .error e s' := bind_of_error h

theorem syncCodeJobs_ok {s' : Store ω} (h : syncSpecs lib cal specs s = .ok () s') :
    syncCodeJobs lib cal specs s = .ok specs.length (endState (retire lib specs) s') := by
  refine (bind_of_ok h).trans ?_
  rw [endState_of_ok (retire_eq lib specs s')]
  exact bind_of_ok (retire_eq lib specs s')

/-- The rows of the specs are those that their rounds leave. -/
theorem syncCodeJobs_get (htidy : Tidy s) {name : Str} (hname : name ∈ specs.map ScheduleSpec.name) :
    Table.get ScheduledJob.name (endState (syncCodeJobs lib cal specs) s).jobs name =
      Table.get ScheduledJob.name (endState (syncSpecs lib cal specs) s).jobs name := by
  rcases endState_syncCodeJobs lib cal specs s with hend | hend
  · rw [hend]
  · rw [hend]
    exact retire_other ((syncSpecs_round lib cal specs htidy).tidy htidy) hname

/-- A sync changes nothing where it has nothing to do, and only there. -/
theorem sync_quiet (hlib : NamesFixed lib) (cal : Calendars) (htidy : Tidy s)
    (hspecs : (specs.map ScheduleSpec.name).Nodup) :
    endState (syncCodeJobs lib cal specs) s = s ↔ quiet lib cal specs s specs = true := by
  constructor
  · intro hkept
    apply quiet_of_kept hlib htidy hspecs
    · intro name hname
      rw [← syncCodeJobs_get htidy hname, hkept]
    · intro s' hs'
      rw [endState_of_ok (syncCodeJobs_ok hs')] at hkept
      have hretired := retiring_again lib specs s' s.clock
      rw [hkept] at hretired
      exact hretired
  · intro hquiet
    obtain ⟨hkept, hretiring⟩ := quiet_keeps hlib htidy hquiet
    cases hrun : syncSpecs lib cal specs s with
    | error e s' =>
      rw [endState_of_error hrun] at hkept
      rw [endState_of_error (syncCodeJobs_error hrun), hkept]
    | ok u s' =>
      rw [endState_of_ok hrun] at hkept
      rw [endState_of_ok (syncCodeJobs_ok hrun), hkept]
      exact retire_nothing lib (hretiring s' hrun)

/-! ### The second sync -/

/-- A second sync, at `t₂`: as long as neither sync raises, every spec is steady; and where the first
one raises, the second has nothing left to do. -/
def undisturbed (lib : Libraries) (cal : Calendars) (t₂ : Time) (all : List ScheduleSpec) :
    Store ω → List ScheduleSpec → Bool
  | _, [] => true
  | s, spec :: specs =>
      match s.provide lib spec with
      | .error _ => quiet lib cal all { s with clock := t₂ } (spec :: specs)
      | .ok (s₁, row) =>
          match spec.round lib cal s.clock row with
          | .error _ => quiet lib cal all { s₁ with clock := t₂ } (spec :: specs)
          | .ok row' => !(spec.round lib cal t₂ row').isOk ||
              spec.steady lib cal s.clock t₂ row && undisturbed lib cal t₂ all (s₁.put row') specs

/-- Behind a first sync, a second one has nothing to do where it is undisturbed. -/
theorem quiet_eq_undisturbed {F : Store ω} (hlib : NamesFixed lib) (htidy : Tidy s)
    (hspecs : (specs.map ScheduleSpec.name).Nodup)
    (hF : ∀ name ∈ specs.map ScheduleSpec.name, Table.get ScheduledJob.name F.jobs name =
      Table.get ScheduledJob.name (endState (syncSpecs lib cal specs) s).jobs name)
    (hraised : ∀ e s', syncSpecs lib cal specs s = .error e s' → F = { s' with clock := F.clock })
    (hretired : ∀ s', syncSpecs lib cal specs s = .ok () s' → F.retiring all = []) :
    quiet lib cal all F specs = undisturbed lib cal F.clock all s specs := by
  induction specs generalizing s with
  | nil => simpa [quiet, undisturbed] using hretired s rfl
  | cons spec specs ih =>
    rw [List.map_cons, List.nodup_cons] at hspecs
    rw [undisturbed]
    cases hprovide : s.provide lib spec with
    | error e =>
      dsimp only
      rw [← hraised e s (bind_of_error (syncSpec_unprovided cal hprovide))]
    | ok provided =>
      obtain ⟨s₁, row⟩ := provided
      obtain ⟨htidy₁, -, hrow, -⟩ := provide_spec htidy hprovide
      have hspec := syncSpec_provided hlib cal htidy hprovide
      dsimp only
      cases hround : spec.round lib cal s.clock row with
      | error e =>
        rw [hround] at hspec
        dsimp only
        rw [← hraised e s₁ (bind_of_error hspec)]
      | ok row' =>
        rw [hround] at hspec
        have htidy' := syncSpec_tidy htidy hspec
        have hmine := hF spec.name List.mem_cons_self
        rw [endState, syncSpecs_cons hspec, ← endState] at hF hmine
        rw [syncSpecs_cons hspec] at hraised hretired
        have hleft : Table.get ScheduledJob.name F.jobs spec.name = some row' := by
          rw [hmine]
          exact syncSpecs_other lib cal htidy' (get_round hrow hround) hspecs.1
        have hrest := ih htidy' hspecs.2
          (fun name hname => hF name (List.mem_cons_of_mem _ hname)) hraised hretired
        dsimp only
        cases hagain : spec.round lib cal F.clock row' with
        | error e => exact quiet_error hleft hagain
        | ok row'' =>
          have hsteady : spec.current lib cal F.clock row' =
              spec.steady lib cal s.clock F.clock row := by
            rw [Bool.eq_iff_iff, ← round_current hagain, round_again hlib hround hagain]
          rw [quiet_ok hleft hagain, hsteady, hrest]
          rfl

end specs

/-! ### The same year -/

/-! ### Two restarts -/

theorem gregorian_names : NamesFixed gregorian := by
  intro name canonical h
  have hutc : canonicalTimezone gregorian "UTC".toList = some "UTC".toList := by decide
  rw [canonicalTimezone] at h
  split at h
  · cases h
  · have hname : canonical = "UTC".toList := by
      simp only [gregorian] at h
      split at h
      · exact (Option.some.inj h).symm
      · cases h
    rw [hname, hutc]

end CwStation.Scheduler
