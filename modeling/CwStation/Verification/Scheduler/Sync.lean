import Mathlib.Data.List.Dedup
import CwStation.Model.Registry

/-! # What a sync does to a row -/

namespace CwStation.Scheduler

open Tasks (Time)
open Effects

variable {ω : Type} {lib : Libraries} {cal : Calendars} {s s' : Store ω} {row row' : ScheduledJob}

/-! ### Fields -/

section fields

variable {job : ScheduledJob} {fields : List Field} {β : Type} {g : ScheduledJob → β}

/-- The fields of a row, taken from another one. -/
def writeFields (job : ScheduledJob) (fields : List Field) (row : ScheduledJob) : ScheduledJob :=
  fields.foldl (Field.write job) row

/-- What none of the fields writes stays. -/
theorem writeFields_same (h : ∀ field ∈ fields, ∀ r, g (field.write job r) = g r)
    (row : ScheduledJob) : g (writeFields job fields row) = g row := by
  induction fields generalizing row with
  | nil => rfl
  | cons field fields ih =>
    have hrest := ih (fun field hfield => h field (List.mem_cons_of_mem _ hfield))
      (field.write job row)
    exact hrest.trans (h field List.mem_cons_self row)

/-- What one of the fields writes, and no other field, is that of the job. -/
theorem writeFields_get {target : Field} (hset : ∀ r, g (target.write job r) = g job)
    (hsame : ∀ field ≠ target, ∀ r, g (field.write job r) = g r) (hmem : target ∈ fields)
    (row : ScheduledJob) : g (writeFields job fields row) = g job := by
  induction fields generalizing row with
  | nil => cases hmem
  | cons field fields ih =>
    by_cases hrest : target ∈ fields
    · exact ih hrest (field.write job row)
    · obtain rfl : target = field := by
        rcases List.mem_cons.mp hmem with h | h
        · exact h
        · exact absurd h hrest
      have hlater : g (writeFields job fields (target.write job row)) = g (target.write job row) := by
        apply writeFields_same
        intro field hfield
        exact hsame field fun h => hrest (h ▸ hfield)
      exact hlater.trans (hset row)

theorem writeFields_pk (job row : ScheduledJob) (fields : List Field) :
    (writeFields job fields row).pk = row.pk :=
  writeFields_same (g := ScheduledJob.pk) (fun field _ r => by cases field <;> rfl) row

theorem writeFields_name (job row : ScheduledJob) (fields : List Field) :
    (writeFields job fields row).name = row.name :=
  writeFields_same (g := ScheduledJob.name) (fun field _ r => by cases field <;> rfl) row

/-- A field is written where it is listed. -/
theorem writeFields_eq (job row : ScheduledJob) (fields : List Field) :
    writeFields job fields row = { row with
      taskPath := if .taskPath ∈ fields then job.taskPath else row.taskPath
      kwargs := if .kwargs ∈ fields then job.kwargs else row.kwargs
      cadence := {
        scheduleType :=
          if .scheduleType ∈ fields then job.cadence.scheduleType else row.cadence.scheduleType
        intervalSpec :=
          if .intervalSpec ∈ fields then job.cadence.intervalSpec else row.cadence.intervalSpec
        anchorAt := if .anchorAt ∈ fields then job.cadence.anchorAt else row.cadence.anchorAt
        cronExpression :=
          if .cronExpression ∈ fields then job.cadence.cronExpression
          else row.cadence.cronExpression
        runAt := if .runAt ∈ fields then job.cadence.runAt else row.cadence.runAt
        timezone := if .timezone ∈ fields then job.cadence.timezone else row.cadence.timezone }
      enabled := if .enabled ∈ fields then job.enabled else row.enabled
      autoRetired := if .autoRetired ∈ fields then job.autoRetired else row.autoRetired
      nextRunAt := if .nextRunAt ∈ fields then job.nextRunAt else row.nextRunAt } := by
  induction fields generalizing row with
  | nil => rfl
  | cons field fields ih =>
    have hcons : writeFields job (field :: fields) row =
        writeFields job fields (field.write job row) := rfl
    rw [hcons, ih]
    cases field <;> simp [Field.write]

end fields

/-! ### Rows -/

/-- What a spec makes of a row: an overridden cadence stays, and so do `enabled` and its marker,
unless a retirement ends. -/
structure Follows (row row' : ScheduledJob) : Prop where
  name : row'.name = row.name
  source : row'.source = row.source
  overridden : row'.scheduleOverridden = row.scheduleOverridden
  cadence : row.scheduleOverridden = true → row'.cadence = row.cadence
  flags : row'.enabled = row.enabled ∧ row'.autoRetired = row.autoRetired ∨
    row.autoRetired = true ∧ row'.enabled = true ∧ row'.autoRetired = false

theorem Follows.refl (row : ScheduledJob) : Follows row row :=
  ⟨rfl, rfl, rfl, fun _ => rfl, .inl ⟨rfl, rfl⟩⟩

theorem Follows.trans {row'' : ScheduledJob} (h : Follows row row') (h' : Follows row' row'') :
    Follows row row'' := by
  refine ⟨h'.name.trans h.name, h'.source.trans h.source, h'.overridden.trans h.overridden, ?_, ?_⟩
  · intro hoverridden
    exact (h'.cadence (h.overridden.trans hoverridden)).trans (h.cadence hoverridden)
  · rcases h.flags with ⟨henabled, hmarker⟩ | ⟨hretired, henabled, hmarker⟩
    · rcases h'.flags with ⟨henabled', hmarker'⟩ | ⟨hretired', hflags'⟩
      · exact .inl ⟨henabled'.trans henabled, hmarker'.trans hmarker⟩
      · exact .inr ⟨hmarker.symm.trans hretired', hflags'⟩
    · rcases h'.flags with ⟨henabled', hmarker'⟩ | ⟨hretired', hflags'⟩
      · exact .inr ⟨hretired, henabled'.trans henabled, hmarker'.trans hmarker⟩
      · exact .inr ⟨hretired, hflags'⟩

/-- No spec of a sync writes a field of the row's cadence that an operator has overridden, and the
fields of the retirement are written together, where there is one. -/
structure Allowed (row job : ScheduledJob) (fields : List Field) : Prop where
  cadence : row.scheduleOverridden = true → ∀ field ∈ fields, field ∉ cadenceFields ∧ field ≠ .anchorAt
  kept : row.autoRetired = false → .enabled ∉ fields ∧ .autoRetired ∉ fields
  ended : row.autoRetired = true → .enabled ∈ fields ∧ .autoRetired ∈ fields ∧
    job.enabled = true ∧ job.autoRetired = false

theorem Allowed.follows {job : ScheduledJob} {fields : List Field} (h : Allowed row job fields) :
    Follows row (writeFields job fields row) := by
  refine ⟨writeFields_name job row fields, ?_, ?_, ?_, ?_⟩
  · exact writeFields_same (g := ScheduledJob.source) (fun field _ r => by cases field <;> rfl) row
  · exact writeFields_same (g := ScheduledJob.scheduleOverridden)
      (fun field _ r => by cases field <;> rfl) row
  · intro hoverridden
    apply writeFields_same (g := ScheduledJob.cadence)
    intro field hfield r
    obtain ⟨hcadence, hanchor⟩ := h.cadence hoverridden field hfield
    cases field <;> first | rfl | exact absurd rfl hanchor | exact absurd (by decide) hcadence
  · cases hretired : row.autoRetired with
    | false =>
      obtain ⟨henabled, hmarker⟩ := h.kept hretired
      refine .inl ⟨?_, ?_⟩
      · apply writeFields_same (g := ScheduledJob.enabled)
        intro field hfield r
        cases field <;> first | rfl | exact absurd hfield henabled
      · rw [← hretired]
        apply writeFields_same (g := ScheduledJob.autoRetired)
        intro field hfield r
        cases field <;> first | rfl | exact absurd hfield hmarker
    | true =>
      obtain ⟨henabled, hmarker, hon, hoff⟩ := h.ended hretired
      refine .inr ⟨rfl, ?_, ?_⟩
      · rw [← hon]
        exact writeFields_get (g := ScheduledJob.enabled) (fun r => rfl)
          (fun field hfield r => by cases field <;> first | rfl | exact absurd rfl hfield) henabled row
      · rw [← hoff]
        exact writeFields_get (g := ScheduledJob.autoRetired) (fun r => rfl)
          (fun field hfield r => by cases field <;> first | rfl | exact absurd rfl hfield) hmarker row

/-- The cursor may be written besides. -/
theorem Allowed.cursor {job job' : ScheduledJob} {fields : List Field} (h : Allowed row job fields)
    (henabled : job'.enabled = job.enabled) (hmarker : job'.autoRetired = job.autoRetired) :
    Allowed row job' (fields ++ [.nextRunAt]) := by
  refine ⟨?_, ?_, ?_⟩
  · intro hoverridden field hfield
    rcases List.mem_append.mp hfield with hfield | hfield
    · exact h.cadence hoverridden field hfield
    · obtain rfl := List.mem_singleton.mp hfield
      decide
  · intro hretired
    obtain ⟨hon, hoff⟩ := h.kept hretired
    simp [hon, hoff]
  · intro hretired
    obtain ⟨hon, hoff, hjob, hjob'⟩ := h.ended hretired
    exact ⟨List.mem_append_left _ hon, List.mem_append_left _ hoff, henabled.trans hjob,
      hmarker.trans hjob'⟩

theorem Allowed.job {job job' : ScheduledJob} {fields : List Field} (h : Allowed row job fields)
    (henabled : job'.enabled = job.enabled) (hmarker : job'.autoRetired = job.autoRetired) :
    Allowed row job' fields := by
  refine ⟨h.cadence, h.kept, ?_⟩
  intro hretired
  obtain ⟨hon, hoff, hjob, hjob'⟩ := h.ended hretired
  exact ⟨hon, hoff, henabled.trans hjob, hmarker.trans hjob'⟩

/-! ### The refresh -/

section refresh

variable {spec : ScheduleSpec} {anchor : Option (Time × Arithmetic)} {job : ScheduledJob}
  {fields : List Field} {arith : Arithmetic}

theorem followCode_spec (h : followCode spec row = (job, fields)) :
    job.pk = row.pk ∧ job.scheduleOverridden = row.scheduleOverridden ∧
      job.enabled = row.enabled ∧ job.autoRetired = row.autoRetired ∧
      ∀ field ∈ fields, field = .taskPath ∨ field = .kwargs ∨
        row.scheduleOverridden = false ∧ field ∈ cadenceFields := by
  obtain ⟨rfl, rfl⟩ := Prod.mk.inj h
  have hfields : ∀ field ∈ (followCode spec row).2, field = .taskPath ∨ field = .kwargs ∨
      row.scheduleOverridden = false ∧ field ∈ cadenceFields := by
    intro field hfield
    have hmem := (List.mem_filter.mp hfield).1
    cases hoverridden : row.scheduleOverridden with
    | false => simpa [hoverridden] using hmem
    | true => simpa [hoverridden] using hmem
  have hother : ∀ field ∈ (followCode spec row).2, field ≠ .enabled ∧ field ≠ .autoRetired := by
    intro field hfield
    rcases hfields field hfield with rfl | rfl | ⟨-, hcadence⟩
    · decide
    · decide
    · refine ⟨?_, ?_⟩ <;> rintro rfl <;> exact absurd hcadence (by decide)
  refine ⟨writeFields_pk _ row _, ?_, ?_, ?_, hfields⟩
  · exact writeFields_same (g := ScheduledJob.scheduleOverridden)
      (fun field _ r => by cases field <;> rfl) row
  · apply writeFields_same (g := ScheduledJob.enabled)
    intro field hfield r
    cases field <;> first | rfl | exact absurd rfl (hother _ hfield).1
  · apply writeFields_same (g := ScheduledJob.autoRetired)
    intro field hfield r
    cases field <;> first | rfl | exact absurd rfl (hother _ hfield).2

theorem followAnchor_spec (h : followAnchor lib anchor row = (job, fields, arith)) :
    job.pk = row.pk ∧ job.scheduleOverridden = row.scheduleOverridden ∧
      job.enabled = row.enabled ∧ job.autoRetired = row.autoRetired ∧
      ∀ field ∈ fields, row.scheduleOverridden = false ∧ field = .anchorAt := by
  unfold followAnchor at h
  split at h
  · split at h
    · rename_i hmoved
      obtain ⟨rfl, rfl, rfl⟩ : _ ∧ _ ∧ _ := by simpa using h
      refine ⟨rfl, rfl, rfl, rfl, ?_⟩
      intro field hfield
      refine ⟨?_, List.mem_singleton.mp hfield⟩
      simpa using (Bool.and_eq_true_iff.mp hmoved).1
    · obtain ⟨rfl, rfl, rfl⟩ : _ ∧ _ ∧ _ := by simpa using h
      exact ⟨rfl, rfl, rfl, rfl, nofun⟩
  · obtain ⟨rfl, rfl, rfl⟩ : _ ∧ _ ∧ _ := by simpa using h
    exact ⟨rfl, rfl, rfl, rfl, nofun⟩

/-- A refresh writes only what it may, and ends a retirement. -/
theorem refresh_spec (h : refresh lib anchor spec row = (job, fields, arith)) :
    job.pk = row.pk ∧ Allowed row job fields := by
  cases hcode : followCode spec row with
  | mk followed wiring =>
    cases hanchor : followAnchor lib anchor followed with
    | mk anchored rest =>
      obtain ⟨moved, arith'⟩ := rest
      simp only [refresh, hcode, hanchor] at h
      obtain ⟨hpk, hoverridden, henabled, hmarker, hwiring⟩ := followCode_spec hcode
      obtain ⟨hpk', hoverridden', henabled', hmarker', hmoved⟩ := followAnchor_spec hanchor
      rw [hmarker] at hmarker'
      rw [henabled] at henabled'
      rw [hoverridden] at hmoved
      have hfields : ∀ field ∈ wiring ++ moved, field ≠ .enabled ∧ field ≠ .autoRetired ∧
          (row.scheduleOverridden = true → field ∉ cadenceFields ∧ field ≠ .anchorAt) := by
        intro field hfield
        rcases List.mem_append.mp hfield with hfield | hfield
        · rcases hwiring field hfield with rfl | rfl | ⟨hfree, hcadence⟩
          · exact ⟨by decide, by decide, fun _ => by decide⟩
          · exact ⟨by decide, by decide, fun _ => by decide⟩
          · refine ⟨?_, ?_, fun htaken => absurd (hfree.symm.trans htaken) nofun⟩ <;>
              rintro rfl <;> exact absurd hcadence (by decide)
        · obtain ⟨hfree, rfl⟩ := hmoved field hfield
          exact ⟨by decide, by decide, fun htaken => absurd (hfree.symm.trans htaken) nofun⟩
      have hunretire : unretire anchored = if row.autoRetired = true then
          ({ anchored with enabled := true, autoRetired := false }, [.enabled, .autoRetired])
          else (anchored, []) := by
        rw [unretire, hmarker']
      rw [hunretire] at h
      cases hretired : row.autoRetired with
      | false =>
        simp only [hretired, Bool.false_eq_true, if_false, List.append_nil, Prod.mk.injEq] at h
        obtain ⟨rfl, rfl, -⟩ := h
        refine ⟨hpk'.trans hpk, fun hoverridden field hfield =>
          (hfields field hfield).2.2 hoverridden, fun _ => ⟨?_, ?_⟩, fun h => ?_⟩
        · intro hmem
          exact (hfields _ hmem).1 rfl
        · intro hmem
          exact (hfields _ hmem).2.1 rfl
        · exact absurd (hretired.symm.trans h) nofun
      | true =>
        simp only [hretired, if_true, Prod.mk.injEq] at h
        obtain ⟨rfl, rfl, -⟩ := h
        refine ⟨hpk'.trans hpk, ?_, fun h => absurd (hretired.symm.trans h) nofun, fun _ => ?_⟩
        · intro hoverridden field hfield
          rcases List.mem_append.mp hfield with hfield | hfield
          · exact (hfields field hfield).2.2 hoverridden
          · rcases List.mem_cons.mp hfield with rfl | hfield
            · decide
            · obtain rfl := List.mem_singleton.mp hfield
              decide
        · exact ⟨List.mem_append_right _ List.mem_cons_self,
            List.mem_append_right _ (List.mem_cons_of_mem _ List.mem_cons_self), rfl, rfl⟩

end refresh

/-! ### Rounds -/

/-- Keys and names are unique. -/
structure Tidy (s : Store ω) : Prop where
  pks : Table.Unique ScheduledJob.pk s.jobs
  names : Table.Unique ScheduledJob.name s.jobs

/-- What is done to the rows that are there. -/
structure Round (R : ScheduledJob → ScheduledJob → Prop) (s s' : Store ω) : Prop where
  clock : s'.clock = s.clock
  tidy : Tidy s → Tidy s'
  rows : Tidy s → ∀ pk row, s.job pk = some row → ∃ row', s'.job pk = some row' ∧ R row row'

theorem round_same {R : ScheduledJob → ScheduledJob → Prop}
    (hR : Tidy s → ∀ row ∈ s.jobs, R row row) : Round R s s :=
  ⟨rfl, id, fun htidy _ row hrow => ⟨row, hrow, hR htidy row (Table.get_mem hrow)⟩⟩

theorem Round.trans {R R' R'' : ScheduledJob → ScheduledJob → Prop} {s s' s'' : Store ω}
    (h : Round R s s') (h' : Round R' s' s'') (hR : ∀ a b c, R a b → R' b c → R'' a c) :
    Round R'' s s'' := by
  refine ⟨h'.clock.trans h.clock, fun htidy => h'.tidy (h.tidy htidy), ?_⟩
  intro htidy pk row hrow
  obtain ⟨row', hrow', hfollows⟩ := h.rows htidy pk row hrow
  obtain ⟨row'', hrow'', hfollows'⟩ := h'.rows (h.tidy htidy) pk row' hrow'
  exact ⟨row'', hrow'', hR _ _ _ hfollows hfollows'⟩

theorem Round.mono {R R' : ScheduledJob → ScheduledJob → Prop} (h : Round R s s')
    (hR : ∀ a b, R a b → R' a b) : Round R' s s' := by
  refine ⟨h.clock, h.tidy, ?_⟩
  intro htidy pk row hrow
  obtain ⟨row', hrow', hfollows⟩ := h.rows htidy pk row hrow
  exact ⟨row', hrow', hR _ _ hfollows⟩

/-- One row is written. -/
theorem round_alter {R : ScheduledJob → ScheduledJob → Prop} {f : ScheduledJob → ScheduledJob}
    (hR : Tidy s → ∀ r ∈ s.jobs, r.pk ≠ row.pk → R r r) (hpk : ∀ r, (f r).pk = r.pk)
    (hname : ∀ r, (f r).name = r.name) (hrow : s.job row.pk = some row) (hf : R row (f row)) :
    Round R s (s.alter row.pk f) := by
  refine ⟨rfl, fun htidy => ⟨htidy.pks.alter hpk, ?_⟩, ?_⟩
  · have hcolumn : (s.alter row.pk f).jobs.map ScheduledJob.name = s.jobs.map ScheduledJob.name := by
      rw [Store.alter, Table.alter, List.map_map]
      apply List.map_congr_left
      intro r _
      simp only [Function.comp_apply]
      split
      · exact hname r
      · rfl
    rw [Table.Unique, hcolumn]
    exact htidy.names
  · intro htidy pk r hr
    rw [Store.job, Store.alter, Table.get_alter hpk]
    by_cases hk : pk = row.pk
    · subst hk
      rw [hrow] at hr
      obtain rfl := Option.some.inj hr
      refine ⟨f row, ?_, hf⟩
      rw [if_pos rfl]
      exact congrArg (Option.map f) hrow
    · rw [if_neg hk]
      refine ⟨r, hr, hR htidy r (Table.get_mem hr) ?_⟩
      rwa [Table.key_of_get hr]

/-- A row is new. -/
theorem round_append {R : ScheduledJob → ScheduledJob → Prop} {job : ScheduledJob}
    (hR : ∀ row ∈ s.jobs, R row row) (hpk : s.job job.pk = none)
    (hname : Table.get ScheduledJob.name s.jobs job.name = none) :
    Round R s { s with jobs := s.jobs ++ [job] } := by
  refine ⟨rfl, fun htidy => ⟨htidy.pks.append hpk, htidy.names.append hname⟩, ?_⟩
  intro _ pk row hrow
  exact ⟨row, Table.get_append_of_some job hrow, hR row (Table.get_mem hrow)⟩

theorem freshPk_free (s : Store ω) : s.job s.freshPk = none := by
  apply Table.get_eq_none_iff.mpr
  intro r hr hkey
  have hle : ∀ (l : List ℕ) (a : ℕ), a ≤ l.foldl max a ∧ ∀ n ∈ l, n ≤ l.foldl max a := by
    intro l
    induction l with
    | nil => simp
    | cons n l ih =>
      intro a
      obtain ⟨hstart, hmem⟩ := ih (max a n)
      simp only [List.foldl_cons, List.mem_cons, forall_eq_or_imp]
      exact ⟨by omega, by omega, hmem⟩
  have := (hle (s.jobs.map ScheduledJob.pk) 0).2 r.pk (List.mem_map_of_mem hr)
  rw [Store.freshPk] at hkey
  omega

/-! ### The round of a spec -/

section specs

variable {spec : ScheduleSpec} {job : ScheduledJob} {fields : List Field} {arith : Arithmetic}

/-- A spec touches the row of its name only. -/
def Served (spec : ScheduleSpec) (row row' : ScheduledJob) : Prop :=
  Follows row row' ∧ (row.name ≠ spec.name → row' = row)

/-- A spec has come to its end: the retirement of its row is over. -/
def Finished (spec : ScheduleSpec) (row row' : ScheduledJob) : Prop :=
  Served spec row row' ∧ (row.name = spec.name → row'.autoRetired = false)

theorem served_refl (row : ScheduledJob) : Served spec row row := ⟨.refl row, fun _ => rfl⟩

theorem Served.trans {row'' : ScheduledJob} (h : Served spec row row') (h' : Served spec row' row'') :
    Served spec row row'' := by
  refine ⟨h.1.trans h'.1, ?_⟩
  intro hname
  obtain rfl := h.2 hname
  exact h'.2 hname

/-- The row of a name is alone with it. -/
theorem Tidy.name_ne (h : Tidy s) (hrow : s.job row.pk = some row) {r : ScheduledJob}
    (hr : r ∈ s.jobs) (hpk : r.pk ≠ row.pk) : r.name ≠ row.name := by
  intro hname
  have hmem : row ∈ s.jobs := Table.get_mem hrow
  have hget := Table.get_of_mem h.names hr
  rw [hname, Table.get_of_mem h.names hmem] at hget
  exact hpk (congrArg ScheduledJob.pk (Option.some.inj hget).symm)

theorem round_write (hrow : s.job row.pk = some row) (hname : row.name = spec.name)
    (hallowed : Allowed row job fields) :
    Round (Finished spec) s (s.alter row.pk (writeFields job fields)) := by
  have hfollows := hallowed.follows
  refine round_alter ?_ (fun r => writeFields_pk job r fields) (fun r => writeFields_name job r fields)
    hrow ⟨⟨hfollows, fun hne => absurd hname hne⟩, fun _ => ?_⟩
  · intro htidy r hr hpk
    exact ⟨served_refl r, fun h => absurd (h.trans hname.symm) (htidy.name_ne hrow hr hpk)⟩
  · rcases hfollows.flags with ⟨-, hmarker⟩ | ⟨-, -, hmarker⟩
    · cases hretired : row.autoRetired with
      | false => exact hmarker.trans hretired
      | true =>
        obtain ⟨-, hmem, -, hoff⟩ := hallowed.ended hretired
        rw [← hoff]
        exact writeFields_get (g := ScheduledJob.autoRetired) (fun r => rfl)
          (fun field hfield r => by cases field <;> first | rfl | exact absurd rfl hfield) hmem row
    · exact hmarker

/-- A cursor is computed, or computing it raises, and the rows stay. -/
theorem computeCursor_cases (lib : Libraries) (arith : Arithmetic) (c : Cadence) (s : Store ω) :
    computeCursor lib arith c s = .error .uncaught s ∧
        nextRun lib arith c s.clock = .error .uncaught ∨
      ∃ next, computeCursor lib arith c s = .ok next s := by
  cases hnext : nextRun lib arith c s.clock with
  | error e =>
    cases e with
    | config =>
      refine .inr ⟨none, (bind_of_ok (get_eq_ok s)).trans ?_⟩
      rw [hnext]
      rfl
    | uncaught =>
      refine .inl ⟨(bind_of_ok (get_eq_ok s)).trans ?_, rfl⟩
      rw [hnext]
      rfl
  | ok next =>
    refine .inr ⟨next, (bind_of_ok (get_eq_ok s)).trans ?_⟩
    rw [hnext]
    rfl

/-- A save writes its fields and perhaps a new cursor, or computing that raises. -/
theorem saveFields_cases (lib : Libraries) (arith : Arithmetic) (job : ScheduledJob)
    (fields : List Field) (s : Store ω) :
    saveFields lib arith job fields s = .error .uncaught s ∧ job.enabled = true ∧
        nextRun lib arith (job.cadence.normalized lib) s.clock = .error .uncaught ∨
      ∃ job' fields', saveFields lib arith job fields s =
          .ok () (s.alter job.pk (writeFields job' fields')) ∧
        job'.enabled = job.enabled ∧ job'.autoRetired = job.autoRetired ∧
        (fields' = fields ∨ fields' = fields ++ [.nextRunAt]) := by
  have hrun : saveFields lib arith job fields s = (do
      let job := { job with cadence := job.cadence.normalized lib }
      let cadenceChanged := (s.job job.pk).any fun old => old.cadence ≠ job.cadence
      if job.enabled && (job.nextRunAt.isNone || cadenceChanged) then
        let next ← computeCursor lib arith job.cadence
        let job := { job with nextRunAt := next }
        set (s.alter job.pk fun row => (fields ++ [Field.nextRunAt]).foldl (Field.write job) row)
      else
        set (s.alter job.pk fun row => fields.foldl (Field.write job) row) : Sync ω Unit) s :=
    bind_of_ok (get_eq_ok s)
  rw [hrun]
  dsimp only
  split
  · rename_i hcompute
    rcases computeCursor_cases lib arith (job.cadence.normalized lib) s with ⟨hraise, hnext⟩ | ⟨next, hnext⟩
    · exact .inl ⟨bind_of_error hraise, (Bool.and_eq_true_iff.mp hcompute).1, hnext⟩
    · right
      refine ⟨_, _, bind_of_ok hnext, ?_, ?_, .inr rfl⟩ <;> rfl
  · exact .inr ⟨_, fields, rfl, rfl, rfl, .inl rfl⟩

theorem saveFields_round (job : ScheduledJob) (hrow : s.job row.pk = some row) (hname : row.name = spec.name)
    (hpk : job.pk = row.pk) (hallowed : Allowed row job fields) :
    saveFields lib arith job fields s = .error .uncaught s ∧ job.enabled = true ∧
        nextRun lib arith (job.cadence.normalized lib) s.clock = .error .uncaught ∨
      ∃ s', saveFields lib arith job fields s = .ok () s' ∧ Round (Finished spec) s s' := by
  rcases saveFields_cases lib arith job fields s with
    hraise | ⟨job', fields', hsaved, henabled, hmarker, hfields⟩
  · exact .inl hraise
  · refine .inr ⟨_, hsaved, ?_⟩
    rw [hpk]
    apply round_write hrow hname
    rcases hfields with rfl | rfl
    · exact hallowed.job henabled hmarker
    · exact hallowed.cursor henabled hmarker

/-! ### What a round needs -/

def raises {α : Type} : Except Failure α → Bool
  | .error .uncaught => true
  | _ => false

/-- Nothing but a `ScheduleConfigError` comes of the next run of a cadence, as it is or as `save`
leaves it. -/
def runsClear (lib : Libraries) (arith : Arithmetic) (c : Cadence) (now : Time) : Bool :=
  !raises (nextRun lib arith c now) && !raises (nextRun lib arith (c.normalized lib) now)

/-- The timezone of a row is known, and the next run that its spec leads to can be computed. -/
def rowClear (lib : Libraries) (cal : Calendars) (now : Time) (spec : ScheduleSpec)
    (row : ScheduledJob) : Bool :=
  match scheduleTz lib row.cadence.timezone with
  | .error _ => false
  | .ok tz =>
      let (job, _, arith) := refresh lib (resolveAnchor lib cal now spec.anchor tz) spec row
      !job.enabled || runsClear lib arith job.cadence now

/-- The same of a spec that has no row. -/
def newClear (lib : Libraries) (cal : Calendars) (now : Time) (spec : ScheduleSpec) : Bool :=
  let c := (spec.row 0).cadence.normalized lib
  !raises (nextRun lib lib.utc c now) && match scheduleTz lib c.timezone with
    | .error _ => false
    | .ok tz => match resolveAnchor lib cal now spec.anchor tz with
      | some (anchorAt, arith) => runsClear lib arith { c with anchorAt := some anchorAt } now
      | none => runsClear lib lib.utc c now

def specClear (lib : Libraries) (cal : Calendars) (s : Store ω) (spec : ScheduleSpec) : Bool :=
  match Table.get ScheduledJob.name s.jobs spec.name with
  | none => newClear lib cal s.clock spec
  | some row => rowClear lib cal s.clock spec row

theorem ofExcept_ok {α : Type} {x : Except Failure α} {a : α} (h : x = .ok a) (s : Store ω) :
    (MonadExcept.ofExcept x : Sync ω α) s = .ok a s := by
  rw [h]
  rfl

theorem ofExcept_error {α : Type} {x : Except Failure α} {e : Failure} (h : x = .error e)
    (s : Store ω) : (MonadExcept.ofExcept x : Sync ω α) s = .error e s := by
  rw [h]
  rfl

/-- A round whose zone is known, behind its refresh. -/
theorem syncRow_run {tz : Str} (htz : scheduleTz lib row.cadence.timezone = .ok tz)
    (hfresh : refresh lib (resolveAnchor lib cal s.clock spec.anchor tz) spec row = (job, fields, arith)) :
    syncRow lib cal spec row s =
      (if job.enabled && ((fields.any fun field => field ∈ cadenceFields || field = .anchorAt) ||
          job.nextRunAt.isNone) then do
        let next ← computeCursor lib arith job.cadence
        saveFields lib arith { job with nextRunAt := next } (fields ++ [.nextRunAt])
      else if fields ≠ [] then
        saveFields lib arith job fields
      else pure () : Sync ω Unit) s := by
  refine (bind_of_ok (get_eq_ok s)).trans ((bind_of_ok (ofExcept_ok htz s)).trans ?_)
  simp only [hfresh]

theorem syncRow_cases (lib : Libraries) (cal : Calendars) (hrow : s.job row.pk = some row)
    (hname : row.name = spec.name) :
    (∃ e, syncRow lib cal spec row s = .error e s) ∧ rowClear lib cal s.clock spec row = false ∨
      ∃ s', syncRow lib cal spec row s = .ok () s' ∧ Round (Finished spec) s s' := by
  cases htz : scheduleTz lib row.cadence.timezone with
  | error e =>
    refine .inl ⟨⟨e, ?_⟩, by simp [rowClear, htz]⟩
    exact (bind_of_ok (get_eq_ok s)).trans (bind_of_error (ofExcept_error htz s))
  | ok tz =>
    cases hfresh : refresh lib (resolveAnchor lib cal s.clock spec.anchor tz) spec row with
    | mk job rest =>
      obtain ⟨changed, arith⟩ := rest
      obtain ⟨hpk, hallowed⟩ := refresh_spec hfresh
      have hrun := syncRow_run htz hfresh
      have hclear : rowClear lib cal s.clock spec row =
          (!job.enabled || runsClear lib arith job.cadence s.clock) := by
        simp only [rowClear, htz, hfresh]
      rw [hrun, hclear]
      split
      · rename_i hcompute
        have henabled : job.enabled = true := (Bool.and_eq_true_iff.mp hcompute).1
        rcases computeCursor_cases lib arith job.cadence s with ⟨hraise, hnext⟩ | ⟨next, hnext⟩
        · exact .inl ⟨⟨_, bind_of_error hraise⟩, by simp [henabled, runsClear, hnext, raises]⟩
        · rw [bind_of_ok hnext]
          rcases saveFields_round { job with nextRunAt := next } hrow hname hpk
            (hallowed.cursor rfl rfl) with ⟨hraise, -, hnext⟩ | hsaved
          · exact .inl ⟨⟨_, hraise⟩, by simp [henabled, runsClear, hnext, raises]⟩
          · exact .inr hsaved
      · split
        · rcases saveFields_round job hrow hname hpk hallowed with ⟨hraise, henabled, hnext⟩ | hsaved
          · exact .inl ⟨⟨_, hraise⟩, by simp [henabled, runsClear, hnext, raises]⟩
          · exact .inr hsaved
        · rename_i hnothing
          obtain rfl : changed = [] := not_not.mp hnothing
          refine .inr ⟨s, rfl, round_same fun htidy r hr => ⟨served_refl r, fun hserved => ?_⟩⟩
          obtain rfl : r = row := by
            by_contra hne
            apply htidy.name_ne hrow hr _ (hserved.trans hname.symm)
            intro hpk
            have hget := Table.get_of_mem htidy.pks hr
            rw [hpk] at hget
            exact hne (Option.some.inj (hget.symm.trans hrow))
          cases hretired : r.autoRetired with
          | false => rfl
          | true => cases (hallowed.ended hretired).1

theorem Finished.trans {row'' : ScheduledJob} (h : Finished spec row row')
    (h' : Finished spec row' row'') : Finished spec row row'' :=
  ⟨h.1.trans h'.1, fun hname => h'.2 (h.1.1.name.trans hname)⟩

/-- Rows without the name of a spec have nothing to do with it. -/
theorem finished_of_none (hnone : Table.get ScheduledJob.name s.jobs spec.name = none) :
    ∀ row ∈ s.jobs, Finished spec row row := by
  intro row hrow
  exact ⟨served_refl row, fun hname => absurd hname (Table.get_eq_none_iff.mp hnone row hrow)⟩

theorem createJob_cases (lib : Libraries)
    (hnone : Table.get ScheduledJob.name s.jobs spec.name = none) :
    createJob lib spec s = .error .uncaught s ∧
        raises (nextRun lib lib.utc ((spec.row 0).cadence.normalized lib) s.clock) = true ∨
      ∃ job s', createJob lib spec s = .ok job s' ∧ Round (Finished spec) s s' ∧
        s'.job job.pk = some job ∧ job.name = spec.name ∧ job.scheduleOverridden = false ∧
        job.autoRetired = false ∧ job.cadence = (spec.row 0).cadence.normalized lib := by
  have hrun := bind_of_ok (f := fun s : Store ω => (do
    let job := spec.row s.freshPk
    let job := { job with cadence := job.cadence.normalized lib }
    let next ← computeCursor lib lib.utc job.cadence
    let job := { job with nextRunAt := next }
    set { s with jobs := s.jobs ++ [job] }
    return job : Sync ω ScheduledJob)) (get_eq_ok s)
  rcases computeCursor_cases lib lib.utc ((spec.row 0).cadence.normalized lib) s with
    ⟨hraise, hnext⟩ | ⟨next, hnext⟩
  · left
    refine ⟨hrun.trans (bind_of_error hraise), ?_⟩
    rw [hnext]
    rfl
  · right
    refine ⟨_, _, hrun.trans (bind_of_ok hnext), ?_, ?_, rfl, rfl, rfl, rfl⟩
    · exact round_append (finished_of_none hnone) (freshPk_free s) hnone
    · have hfree : Table.get ScheduledJob.pk s.jobs s.freshPk = none := freshPk_free s
      refine (Table.get_append _).trans ?_
      change (Table.get ScheduledJob.pk s.jobs s.freshPk).or _ = _
      rw [hfree, Option.none_or, if_pos rfl]

theorem syncNew_cases (lib : Libraries) (cal : Calendars)
    (hnone : Table.get ScheduledJob.name s.jobs spec.name = none) :
    (∃ e s', syncNew lib cal spec s = .error e s' ∧ Round (Served spec) s s') ∧
        newClear lib cal s.clock spec = false ∨
      ∃ s', syncNew lib cal spec s = .ok () s' ∧ Round (Finished spec) s s' := by
  rcases createJob_cases lib hnone with
    ⟨hraise, hnext⟩ | ⟨job, s₁, hcreated, hround, hjob, hname, hfree, hmarker, hcadence⟩
  · refine .inl ⟨⟨_, s, bind_of_error hraise, round_same fun _ r _ => served_refl r⟩, ?_⟩
    simp [newClear, hnext]
  · have hserved : Round (Served spec) s s₁ := hround.mono fun _ _ h => h.1
    have hclock : s₁.clock = s.clock := hround.clock
    cases htz : scheduleTz lib job.cadence.timezone with
    | error e =>
      refine .inl ⟨⟨e, s₁, ?_, hserved⟩, ?_⟩
      · exact (bind_of_ok hcreated).trans
          ((bind_of_ok (get_eq_ok s₁)).trans (bind_of_error (ofExcept_error htz s₁)))
      · rw [hcadence] at htz
        simp [newClear, htz]
    | ok tz =>
      -- the anchor of the spec, if it has one
      obtain ⟨anchored, arith, hrest, hpk, hoverridden, hretired, hclear⟩ :
          ∃ (anchored : ScheduledJob) (arith : Arithmetic), syncNew lib cal spec s = (do
              let next ← computeCursor lib arith anchored.cadence
              saveFields lib arith { anchored with nextRunAt := next } [.anchorAt, .nextRunAt] :
              Sync ω Unit) s₁ ∧ anchored.pk = job.pk ∧ anchored.scheduleOverridden = false ∧
            anchored.autoRetired = false ∧ (newClear lib cal s.clock spec = true →
              runsClear lib arith anchored.cadence s.clock = true) := by
        have hrun : syncNew lib cal spec s = _ := (bind_of_ok hcreated).trans
          ((bind_of_ok (get_eq_ok s₁)).trans (bind_of_ok (ofExcept_ok htz s₁)))
        rw [hcadence] at htz
        cases hanchor : resolveAnchor lib cal s.clock spec.anchor tz with
        | none =>
          refine ⟨job, lib.utc, ?_, rfl, hfree, hmarker, ?_⟩
          · rw [hrun, hclock, hanchor]
          · simp only [newClear, htz, hanchor, hcadence, Bool.and_eq_true]
            exact fun h => h.2
        | some anchor =>
          refine ⟨{ job with cadence.anchorAt := some anchor.1 }, anchor.2, ?_, rfl, hfree, hmarker, ?_⟩
          · rw [hrun, hclock, hanchor]
          · simp only [newClear, htz, hanchor, hcadence, Bool.and_eq_true]
            exact fun h => h.2
      have hunclear : runsClear lib arith anchored.cadence s.clock = false →
          newClear lib cal s.clock spec = false := by
        intro hruns
        cases hnew : newClear lib cal s.clock spec with
        | false => rfl
        | true => exact absurd (hruns.symm.trans (hclear hnew)) nofun
      have hallowed : ∀ next, Allowed job { anchored with nextRunAt := next } [.anchorAt, .nextRunAt] :=
        fun _ => ⟨fun h => absurd (hfree.symm.trans h) nofun, fun _ => by decide,
          fun h => absurd (hmarker.symm.trans h) nofun⟩
      rw [hrest]
      rcases computeCursor_cases lib arith anchored.cadence s₁ with ⟨hraise, hnext⟩ | ⟨next, hnext⟩
      · rw [hclock] at hnext
        refine .inl ⟨⟨_, s₁, bind_of_error hraise, hserved⟩, hunclear ?_⟩
        simp [runsClear, hnext, raises]
      · rw [bind_of_ok hnext]
        rcases saveFields_round { anchored with nextRunAt := next } (Table.key_of_get hjob ▸ hjob)
          hname hpk (hallowed next) with ⟨hraise, -, hnext⟩ | ⟨s₂, hsaved, hround'⟩
        · rw [hclock] at hnext
          refine .inl ⟨⟨_, s₁, hraise, hserved⟩, hunclear ?_⟩
          simp [runsClear, hnext, raises]
        · exact .inr ⟨s₂, hsaved, hround.trans hround' fun _ _ _ => Finished.trans⟩

theorem syncSpec_none (h : Table.get ScheduledJob.name s.jobs spec.name = none) :
    syncSpec lib cal spec s = syncNew lib cal spec s := by
  refine (bind_of_ok (get_eq_ok s)).trans ?_
  rw [h]

theorem syncSpec_some (h : Table.get ScheduledJob.name s.jobs spec.name = some row) :
    syncSpec lib cal spec s = syncRow lib cal spec row s := by
  refine (bind_of_ok (get_eq_ok s)).trans ?_
  rw [h]

/-- The round of a spec ends, or it raises where something is not clear. -/
theorem syncSpec_cases (lib : Libraries) (cal : Calendars) (spec : ScheduleSpec) (htidy : Tidy s) :
    (∃ e s', syncSpec lib cal spec s = .error e s' ∧ Round (Served spec) s s') ∧
        specClear lib cal s spec = false ∨
      ∃ s', syncSpec lib cal spec s = .ok () s' ∧ Round (Finished spec) s s' := by
  cases hrow : Table.get ScheduledJob.name s.jobs spec.name with
  | none =>
    rw [syncSpec_none hrow, specClear, hrow]
    exact syncNew_cases lib cal hrow
  | some row =>
    rw [syncSpec_some hrow, specClear, hrow]
    have hjob : s.job row.pk = some row := Table.get_of_mem htidy.pks (Table.get_mem hrow)
    rcases syncRow_cases lib cal hjob (Table.key_of_get hrow) with ⟨⟨e, hraise⟩, hclear⟩ | hended
    · exact .inl ⟨⟨e, s, hraise, round_same fun _ r _ => served_refl r⟩, hclear⟩
    · exact .inr hended

end specs

/-! ### The sync -/

section sync

variable {specs : List ScheduleSpec}

/-- Specs touch the rows of their names only. -/
def ServedAll (specs : List ScheduleSpec) (row row' : ScheduledJob) : Prop :=
  Follows row row' ∧ (row.name ∉ specs.map ScheduleSpec.name → row' = row)

/-- A row that a sync has retired waits for its spec. -/
def Store.waits (s : Store ω) (specs : List ScheduleSpec) : Bool :=
  s.jobs.any fun row => row.autoRetired && !row.enabled && row.name ∈ specs.map ScheduleSpec.name

/-- Every round is clear, as long as a retired row waits for its spec. -/
def specsClear (lib : Libraries) (cal : Calendars) : Store ω → List ScheduleSpec → Bool
  | _, [] => true
  | s, spec :: specs => (!s.waits (spec :: specs) || specClear lib cal s spec) &&
      specsClear lib cal (endState (syncSpec lib cal spec) s) specs

theorem syncSpecs_round (lib : Libraries) (cal : Calendars) (specs : List ScheduleSpec)
    (htidy : Tidy s) : Round (ServedAll specs) s (endState (syncSpecs lib cal specs) s) := by
  induction specs generalizing s with
  | nil => exact round_same fun _ row _ => ⟨.refl row, fun _ => rfl⟩
  | cons spec specs ih =>
    have hhead : ∀ row row', Served spec row row' → ServedAll (spec :: specs) row row' := by
      intro row row' h
      refine ⟨h.1, fun hname => h.2 ?_⟩
      rw [List.map_cons, List.mem_cons, not_or] at hname
      exact hname.1
    rcases syncSpec_cases lib cal spec htidy with ⟨⟨e, s', hraise, hround⟩, -⟩ | ⟨s', hended, hround⟩
    · rw [syncSpecs, endState_of_error (bind_of_error hraise)]
      exact hround.mono hhead
    · have hrest : endState (syncSpecs lib cal (spec :: specs)) s =
          endState (syncSpecs lib cal specs) s' := by
        rw [endState, endState, syncSpecs, bind_of_ok hended]
      rw [hrest]
      refine hround.trans (ih (hround.tidy htidy)) ?_
      intro a b c hab hbc
      refine ⟨hab.1.1.trans hbc.1, fun hname => ?_⟩
      rw [List.map_cons, List.mem_cons, not_or] at hname
      obtain rfl : b = a := hab.1.2 hname.1
      exact hbc.2 hname.2

/-- Where the rounds are clear, the spec of a retired row ends its retirement. -/
theorem syncSpecs_returns (lib : Libraries) (cal : Calendars) (specs : List ScheduleSpec)
    (htidy : Tidy s) (hclear : specsClear lib cal s specs = true) (hrow : s.job row.pk = some row)
    (hretired : row.autoRetired = true) (hoff : row.enabled = false)
    (hname : row.name ∈ specs.map ScheduleSpec.name) :
    ∃ row', (endState (syncSpecs lib cal specs) s).job row.pk = some row' ∧ row'.enabled = true := by
  induction specs generalizing s with
  | nil => cases hname
  | cons spec specs ih =>
    simp only [specsClear, Bool.and_eq_true] at hclear
    have hwaits : s.waits (spec :: specs) = true := by
      refine List.any_eq_true.mpr ⟨row, Table.get_mem hrow, ?_⟩
      simp only [hretired, hoff, hname, decide_true, Bool.not_false, Bool.and_self]
    rw [hwaits, Bool.not_true, Bool.false_or] at hclear
    rcases syncSpec_cases lib cal spec htidy with ⟨-, hunclear⟩ | ⟨s', hended, hround⟩
    · exact absurd (hunclear.symm.trans hclear.1) nofun
    · have hrest : endState (syncSpecs lib cal (spec :: specs)) s =
          endState (syncSpecs lib cal specs) s' := by
        rw [endState, endState, syncSpecs, bind_of_ok hended]
      rw [hrest]
      rw [endState_of_ok hended] at hclear
      obtain ⟨row', hrow', hfinished⟩ := hround.rows htidy row.pk row hrow
      by_cases hserved : row.name = spec.name
      · have hmarker := hfinished.2 hserved
        have hon : row'.enabled = true := by
          rcases hfinished.1.1.flags with ⟨-, hsame⟩ | ⟨-, hon, -⟩
          · exact absurd (hmarker.symm.trans (hsame.trans hretired)) nofun
          · exact hon
        obtain ⟨row'', hrow'', hfollows⟩ :=
          (syncSpecs_round lib cal specs (hround.tidy htidy)).rows (hround.tidy htidy) row.pk row' hrow'
        refine ⟨row'', hrow'', ?_⟩
        rcases hfollows.1.flags with ⟨hsame, -⟩ | ⟨hagain, -⟩
        · exact hsame.trans hon
        · exact absurd (hmarker.symm.trans hagain) nofun
      · obtain rfl : row' = row := hfinished.1.2 hserved
        refine ih (hround.tidy htidy) hclear.2 hrow' ?_
        rcases List.mem_cons.mp hname with h | h
        · exact absurd h hserved
        · exact h

/-! ### The retirement -/

/-- What a retirement makes of a row. -/
def Retires (specs : List ScheduleSpec) (row row' : ScheduledJob) : Prop :=
  row' = row ∨ row.source = .code ∧ row.enabled = true ∧ row.name ∉ specs.map ScheduleSpec.name ∧
    row'.name = row.name ∧ row'.source = row.source ∧
    row'.scheduleOverridden = row.scheduleOverridden ∧ row'.cadence = row.cadence ∧
    row'.enabled = false ∧ row'.autoRetired = true

/-- The row of an orphan as its retirement writes it. -/
theorem saveFields_retire (lib : Libraries) (job : ScheduledJob) (s : Store ω) :
    ∃ job', saveFields lib lib.utc { job with enabled := false, autoRetired := true, nextRunAt := none }
        [.enabled, .autoRetired, .nextRunAt] s =
      .ok () (s.alter job.pk (writeFields job' [.enabled, .autoRetired, .nextRunAt])) ∧
      job'.enabled = false ∧ job'.autoRetired = true :=
  ⟨_, rfl, rfl, rfl⟩

theorem Retires.trans {row'' : ScheduledJob} (h : Retires specs row row')
    (h' : Retires specs row' row'') : Retires specs row row'' := by
  rcases h with rfl | h
  · exact h'
  · rcases h' with rfl | h'
    · exact .inr h
    · obtain ⟨-, -, -, -, -, -, -, hoff, -⟩ := h
      exact absurd (hoff.symm.trans h'.2.1) nofun

theorem retires_write {job job' : ScheduledJob} (hcode : job.source = .code)
    (hon : job.enabled = true) (hname : job.name ∉ specs.map ScheduleSpec.name)
    (hoff : job'.enabled = false) (hmarker : job'.autoRetired = true) :
    Retires specs job (writeFields job' [.enabled, .autoRetired, .nextRunAt] job) :=
  .inr ⟨hcode, hon, hname, rfl, rfl, rfl, rfl, hoff, hmarker⟩

theorem retireJobs_round (lib : Libraries) (jobs : List ScheduledJob)
    (hnodup : (jobs.map ScheduledJob.pk).Nodup)
    (hjobs : ∀ job ∈ jobs, s.job job.pk = some job ∧ job.source = .code ∧
      job.enabled = true ∧ job.name ∉ specs.map ScheduleSpec.name) :
    Round (Retires specs) s (endState (retireJobs lib jobs) s) := by
  induction jobs generalizing s with
  | nil => exact round_same fun _ row _ => .inl rfl
  | cons job jobs ih =>
    obtain ⟨job', hsaved, hoff, hmarker⟩ := saveFields_retire lib job s
    obtain ⟨hrow, hcode, hon, hname⟩ := hjobs job List.mem_cons_self
    rw [List.map_cons, List.nodup_cons] at hnodup
    have hround : Round (Retires specs) s
        (s.alter job.pk (writeFields job' [.enabled, .autoRetired, .nextRunAt])) :=
      round_alter (fun _ _ _ _ => .inl rfl) (fun r => writeFields_pk job' r _)
        (fun r => writeFields_name job' r _) hrow (retires_write hcode hon hname hoff hmarker)
    rw [retireJobs, endState, bind_of_ok hsaved, ← endState]
    refine hround.trans (ih hnodup.2 ?_) fun _ _ _ => Retires.trans
    intro other hother
    obtain ⟨hrow', hrest⟩ := hjobs other (List.mem_cons_of_mem _ hother)
    refine ⟨?_, hrest⟩
    rw [Store.job, Store.alter, Table.get_alter fun r => writeFields_pk job' r _, if_neg]
    · exact hrow'
    · intro hpk
      exact hnodup.1 (hpk ▸ List.mem_map_of_mem hother)

theorem retire_round (lib : Libraries) (specs : List ScheduleSpec) (htidy : Tidy s) :
    Round (Retires specs) s (endState (retire lib specs) s) := by
  have hrun : retire lib specs s = (if specs ≠ [] ∧
      retirementIsPlausible (s.orphans specs) specs = true then
      retireJobs lib (s.orphans specs) else pure () : Sync ω Unit) s := bind_of_ok (get_eq_ok s)
  rw [endState, hrun, ← endState]
  split
  · apply retireJobs_round
    · exact (List.filter_sublist.map ScheduledJob.pk).nodup htidy.pks
    · intro job hjob
      obtain ⟨hmem, hwhere⟩ := List.mem_filter.mp hjob
      simp only [Bool.and_eq_true, decide_eq_true_eq, liveNames, List.mem_dedup] at hwhere
      exact ⟨Table.get_of_mem htidy.pks hmem, hwhere.1.1, hwhere.1.2, hwhere.2⟩
  · exact round_same fun _ row _ => .inl rfl

/-- What a sync makes of a row: its spec, or the retirement. -/
def Synced (specs : List ScheduleSpec) (row row' : ScheduledJob) : Prop :=
  ∃ served, ServedAll specs row served ∧ Retires specs served row'

/-- A sync ends where its rounds raise, or with the retirement. -/
theorem endState_syncCodeJobs (lib : Libraries) (cal : Calendars) (specs : List ScheduleSpec)
    (s : Store ω) :
    endState (syncCodeJobs lib cal specs) s = endState (syncSpecs lib cal specs) s ∨
      endState (syncCodeJobs lib cal specs) s =
        endState (retire lib specs) (endState (syncSpecs lib cal specs) s) := by
  cases hrun : syncSpecs lib cal specs s with
  | error e s' =>
    rw [endState_of_error hrun, syncCodeJobs, endState_of_error (bind_of_error hrun)]
    exact .inl rfl
  | ok a s' =>
    rw [endState_of_ok hrun, syncCodeJobs, endState, bind_of_ok hrun]
    right
    cases hretired : retire lib specs s' with
    | error e s'' => rw [bind_of_error hretired, endState_of_error hretired]
    | ok a s'' =>
      rw [bind_of_ok hretired, endState_of_ok hretired]
      rfl

/-- A sync keeps to its rounds and the retirement, whether it returns or raises. -/
theorem syncCodeJobs_round (lib : Libraries) (cal : Calendars) (specs : List ScheduleSpec)
    (htidy : Tidy s) : Round (Synced specs) s (endState (syncCodeJobs lib cal specs) s) := by
  have hspecs := syncSpecs_round lib cal specs htidy
  rcases endState_syncCodeJobs lib cal specs s with hend | hend
  · rw [hend]
    exact hspecs.mono fun _ row' h => ⟨row', h, .inl rfl⟩
  · rw [hend]
    exact hspecs.trans (retire_round lib specs (hspecs.tidy htidy)) fun _ b _ h h' => ⟨b, h, h'⟩

/-- Where the rounds are clear, a sync enables the retired rows whose specs are there. -/
theorem syncCodeJobs_returns (lib : Libraries) (cal : Calendars) (specs : List ScheduleSpec)
    (htidy : Tidy s) (hclear : specsClear lib cal s specs = true) (hrow : s.job row.pk = some row)
    (hretired : row.autoRetired = true) (hoff : row.enabled = false)
    (hname : row.name ∈ specs.map ScheduleSpec.name) :
    ∃ row', (endState (syncCodeJobs lib cal specs) s).job row.pk = some row' ∧ row'.enabled = true := by
  obtain ⟨served, hserved, hon⟩ :=
    syncSpecs_returns lib cal specs htidy hclear hrow hretired hoff hname
  rcases endState_syncCodeJobs lib cal specs s with hend | hend
  · exact ⟨served, hend ▸ hserved, hon⟩
  · have hspecs := syncSpecs_round lib cal specs htidy
    obtain ⟨served', hserved', hfollows⟩ := hspecs.rows htidy row.pk row hrow
    obtain rfl : served' = served := Option.some.inj (hserved'.symm.trans hserved)
    obtain ⟨row', hrow', hretires⟩ :=
      (retire_round lib specs (hspecs.tidy htidy)).rows (hspecs.tidy htidy) row.pk _ hserved
    refine ⟨row', hend ▸ hrow', ?_⟩
    rcases hretires with rfl | ⟨-, -, hgone, -⟩
    · exact hon
    · exact absurd (hfollows.1.name ▸ hname) hgone

end sync

end CwStation.Scheduler
