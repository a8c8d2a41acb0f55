import CwStation.Verification.Scheduler.Gregorian
import CwStation.Verification.Scheduler.Sync

/-! # Whose rows the sync may change

Syncs and edits of the form, in any order, with the one who has changed `enabled` last and with
the cadences that an operator has changed. -/

namespace CwStation.Scheduler

open Tasks (Time seconds)
open Effects Scripts

variable {ω : Type} {engine : Engine ω} {cal : Calendars}

/-! ### Visits -/

/-- Who changes a row. -/
inductive Author
  | operator
  | sync
  deriving DecidableEq

/-- A sync of the specs that are declared then, an edit through the form, or some time. -/
inductive Visit
  | sync (specs : List ScheduleSpec)
  | edit (pk : ℕ) (filled : Edit)
  | elapse (d : ℕ)

/-- The rows, who has switched each one last, and whether an operator has changed its cadence. -/
structure Ledger (ω : Type) where
  store : Store ω
  switched : ℕ → Option Author := fun _ => none
  rescheduled : ℕ → Bool := fun _ => false

/-- A row is there before and after, and `enabled` is not the same. -/
def switches (s s' : Store ω) (pk : ℕ) : Bool :=
  (s.job pk).any fun row => (s'.job pk).any fun row' => row.enabled ≠ row'.enabled

/-- An edit has another cadence than the row. -/
def reschedules (s : Store ω) (pk : ℕ) (filled : Edit) : Bool :=
  (s.job pk).any fun row => filled.cadence.any fun c => row.cadence ≠ c

namespace Ledger

/-- What one author makes of the rows. -/
def moveTo (y : Ledger ω) (author : Author) (store : Store ω) : Ledger ω where
  store
  switched pk := if switches y.store store pk then some author else y.switched pk
  rescheduled := y.rescheduled

def step (engine : Engine ω) (cal : Calendars) (y : Ledger ω) : Visit → Ledger ω
  | .sync specs => y.moveTo .sync (endState (syncCodeJobs engine.lib cal specs) y.store)
  | .edit pk filled =>
      let (saved, store) := (editJob engine.lib pk filled).eval (exec engine) y.store
      { y.moveTo .operator store with
        rescheduled := fun k => y.rescheduled k ||
          (k = pk && saved.any Except.isOk && reschedules y.store pk filled) }
  | .elapse d => { y with store.clock := y.store.clock + d }

def run (engine : Engine ω) (cal : Calendars) (y : Ledger ω) (visits : List Visit) : Ledger ω :=
  visits.foldl (step engine cal) y

end Ledger

/-- A sync leaves the rows of operators alone, what they have switched off stays off and what they
have scheduled stays as it is; what a sync has retired is enabled where its spec is back. -/
structure Respects (specs : List ScheduleSpec) (y : Ledger ω) (s' : Store ω) : Prop where
  ui : ∀ row ∈ y.store.jobs, row.source = .ui → s'.job row.pk = some row
  paused : ∀ row ∈ y.store.jobs, y.switched row.pk = some .operator → row.enabled = false →
    ∃ row', s'.job row.pk = some row' ∧ row'.enabled = false
  scheduled : ∀ row ∈ y.store.jobs, y.rescheduled row.pk = true →
    ∃ row', s'.job row.pk = some row' ∧ row'.cadence = row.cadence
  returns : ∀ row ∈ y.store.jobs, y.switched row.pk = some .sync → row.enabled = false →
    row.name ∈ specs.map ScheduleSpec.name →
    ∃ row', s'.job row.pk = some row' ∧ row'.enabled = true

/-! ### The condition -/

/-- The cadence that a spec gives to a row, without its anchor. -/
def ScheduleSpec.cadence (spec : ScheduleSpec) (row : ScheduledJob) : Cadence where
  scheduleType := spec.scheduleType
  intervalSpec := spec.intervalSpec
  anchorAt := row.cadence.anchorAt
  cronExpression := spec.cronExpression
  runAt := spec.runAt
  timezone := spec.timezone

/-- A row is as a spec has it, and has no use for a new cursor. -/
def ScheduleSpec.agrees (lib : Libraries) (cal : Calendars) (now : Time) (spec : ScheduleSpec)
    (row : ScheduledJob) : Bool :=
  match scheduleTz lib row.cadence.timezone with
  | .error _ => true
  | .ok tz =>
      row.taskPath = spec.taskPath && row.kwargs = spec.kwargs && !row.autoRetired &&
        (!row.enabled || row.nextRunAt.isSome) &&
        (row.scheduleOverridden ||
          (row.cadence = spec.cadence row &&
            (resolveAnchor lib cal now spec.anchor tz).all fun anchor =>
              row.cadence.anchorAt = some anchor.1))

/-- A sync has no spec with the name of an operator's row, unless the row agrees with it, and its
rounds do not raise while a retired row waits. An edit switches no row off that carries the marker
of a retirement. -/
def Visit.permitted (engine : Engine ω) (cal : Calendars) (s : Store ω) : Visit → Bool
  | .sync specs =>
      (s.jobs.all fun row => row.source = .code || specs.all fun spec =>
        spec.name ≠ row.name || spec.agrees engine.lib cal s.clock row) &&
        specsClear engine.lib cal s specs
  | .edit pk filled => (s.job pk).all fun row => !row.enabled || filled.enabled || !row.autoRetired
  | .elapse _ => true

/-- Every visit of a run is permitted. -/
def Ledger.permitted (engine : Engine ω) (cal : Calendars) : Ledger ω → List Visit → Bool
  | _, [] => true
  | y, visit :: visits => visit.permitted engine cal y.store &&
      permitted engine cal (y.step engine cal visit) visits

/-! ### The rows of operators -/

section agrees

variable {lib : Libraries} {s : Store ω} {spec : ScheduleSpec} {specs : List ScheduleSpec}
  {row row' : ScheduledJob}

theorem followCode_agrees (hpath : row.taskPath = spec.taskPath) (hkwargs : row.kwargs = spec.kwargs)
    (hcadence : row.scheduleOverridden = true ∨ row.cadence = spec.cadence row) :
    followCode spec row = (row, []) := by
  have hsame : ∀ field ∈ [Field.taskPath, .kwargs] ++ (if row.scheduleOverridden then [] else cadenceFields),
      field.write (spec.row row.pk) row = row := by
    intro field hfield
    rcases List.mem_append.mp hfield with hfield | hfield
    · simp only [List.mem_cons, List.not_mem_nil, or_false] at hfield
      rcases hfield with rfl | rfl
      · exact congrArg (fun path => { row with taskPath := path }) hpath.symm
      · exact congrArg (fun kwargs => { row with kwargs }) hkwargs.symm
    · split at hfield
      · cases hfield
      · rename_i hfree
        have hsame := hcadence.resolve_left hfree
        simp only [cadenceFields, List.mem_cons, List.not_mem_nil, or_false] at hfield
        rcases hfield with rfl | rfl | rfl | rfl | rfl
        · exact congrArg (fun c => { row with cadence.scheduleType := c })
            (congrArg Cadence.scheduleType hsame).symm
        · exact congrArg (fun c => { row with cadence.intervalSpec := c })
            (congrArg Cadence.intervalSpec hsame).symm
        · exact congrArg (fun c => { row with cadence.cronExpression := c })
            (congrArg Cadence.cronExpression hsame).symm
        · exact congrArg (fun c => { row with cadence.runAt := c })
            (congrArg Cadence.runAt hsame).symm
        · exact congrArg (fun c => { row with cadence.timezone := c })
            (congrArg Cadence.timezone hsame).symm
  have hnone : ([Field.taskPath, .kwargs] ++ (if row.scheduleOverridden then [] else cadenceFields)).filter
      (fun field => field.write (spec.row row.pk) row ≠ row) = [] := by
    apply List.filter_eq_nil_iff.mpr
    intro field hfield
    simp [hsame field hfield]
  rw [followCode, hnone]
  rfl

theorem followAnchor_agrees {anchor : Option (Time × Arithmetic)}
    (hanchor : row.scheduleOverridden = true ∨ ∀ a ∈ anchor, row.cadence.anchorAt = some a.1) :
    followAnchor lib anchor row = (row, [], lib.utc) := by
  cases anchor with
  | none => rfl
  | some a =>
    rw [followAnchor, if_neg]
    rcases hanchor with hoverridden | hsame
    · simp [hoverridden]
    · simp [hsame a rfl]

/-- A spec changes no row that agrees with it. -/
theorem syncRow_agrees (hagrees : spec.agrees lib cal s.clock row = true) :
    endState (syncRow lib cal spec row) s = s := by
  have hrun : syncRow lib cal spec row s = _ := bind_of_ok (get_eq_ok s)
  cases htz : scheduleTz lib row.cadence.timezone with
  | error e =>
    rw [htz] at hrun
    rw [endState_of_error (hrun.trans (bind_of_error rfl))]
  | ok tz =>
    simp only [ScheduleSpec.agrees, htz, Bool.and_eq_true, Bool.or_eq_true, decide_eq_true_eq,
      Bool.not_eq_true', Option.all_eq_true] at hagrees
    obtain ⟨⟨⟨⟨hpath, hkwargs⟩, hmarker⟩, hcursor⟩, hcadence⟩ := hagrees
    have hcode := followCode_agrees hpath hkwargs (hcadence.imp_right And.left)
    have hanchor : followAnchor lib (resolveAnchor lib cal s.clock spec.anchor tz) row =
        (row, [], lib.utc) := followAnchor_agrees (hcadence.imp_right And.right)
    have hrefresh : refresh lib (resolveAnchor lib cal s.clock spec.anchor tz) spec row =
        (row, [], lib.utc) := by
      simp only [refresh, hcode, hanchor, unretire, hmarker, Bool.false_eq_true, if_false,
        List.append_nil]
    rw [htz] at hrun
    have hquiet : (row.enabled && (false || row.nextRunAt.isNone)) = false := by
      cases henabled : row.enabled with
      | false => rfl
      | true =>
        obtain ⟨next, hnext⟩ := Option.isSome_iff_exists.mp
          (hcursor.resolve_left fun h => Bool.false_ne_true (h.symm.trans henabled))
        rw [hnext]
        rfl
    have hdone : syncRow lib cal spec row s = .ok () s := by
      rw [hrun, bind_of_ok (ofExcept_ok rfl s), hrefresh]
      simp only [List.any_nil, hquiet, Bool.false_eq_true, if_false, ne_eq, not_true]
      rfl
    rw [endState_of_ok hdone]

theorem syncSpec_agrees (htidy : Tidy s) (hrow : s.job row.pk = some row)
    (hagrees : spec.name = row.name → spec.agrees lib cal s.clock row = true) :
    (endState (syncSpec lib cal spec) s).job row.pk = some row := by
  by_cases hname : spec.name = row.name
  · have hget : Table.get ScheduledJob.name s.jobs spec.name = some row := by
      rw [hname]
      exact Table.get_of_mem htidy.names (Table.get_mem hrow)
    rw [endState, syncSpec_some hget, ← endState, syncRow_agrees (hagrees hname)]
    exact hrow
  · have hother : ∀ s', Round (Served spec) s s' → s'.job row.pk = some row := by
      intro s' hround
      obtain ⟨row', hrow', hserved⟩ := hround.rows htidy row.pk row hrow
      rw [hrow', hserved.2 fun h => hname h.symm]
    rcases syncSpec_cases lib cal spec htidy with ⟨⟨e, s', hraise, hround⟩, -⟩ | ⟨s', hended, hround⟩
    · rw [endState_of_error hraise]
      exact hother s' hround
    · rw [endState_of_ok hended]
      exact hother s' (hround.mono fun _ _ => And.left)

theorem syncSpecs_agrees (htidy : Tidy s) (hrow : s.job row.pk = some row)
    (hagrees : ∀ spec ∈ specs, spec.name = row.name → spec.agrees lib cal s.clock row = true) :
    (endState (syncSpecs lib cal specs) s).job row.pk = some row := by
  induction specs generalizing s with
  | nil => exact hrow
  | cons spec specs ih =>
    have hnext := syncSpec_agrees htidy hrow (hagrees spec List.mem_cons_self)
    rcases syncSpec_cases lib cal spec htidy with ⟨⟨e, s', hraise, -⟩, -⟩ | ⟨s', hended, hround⟩
    · rw [syncSpecs, endState_of_error (bind_of_error hraise)]
      rwa [endState_of_error hraise] at hnext
    · rw [endState_of_ok hended] at hnext
      have hrest : endState (syncSpecs lib cal (spec :: specs)) s =
          endState (syncSpecs lib cal specs) s' := by
        rw [endState, endState, syncSpecs, bind_of_ok hended]
      rw [hrest]
      apply ih (hround.tidy htidy) hnext
      intro other hother
      rw [hround.clock]
      exact hagrees other (List.mem_cons_of_mem spec hother)

/-- A sync leaves a row of an operator alone that its specs agree with. -/
theorem syncCodeJobs_agrees (htidy : Tidy s) (hrow : s.job row.pk = some row) (hui : row.source = .ui)
    (hagrees : ∀ spec ∈ specs, spec.name = row.name → spec.agrees lib cal s.clock row = true) :
    (endState (syncCodeJobs lib cal specs) s).job row.pk = some row := by
  have hspecs := syncSpecs_agrees htidy hrow hagrees
  rcases endState_syncCodeJobs lib cal specs s with hend | hend
  · rw [hend]
    exact hspecs
  · have htidy' := (syncSpecs_round lib cal specs htidy).tidy htidy
    obtain ⟨row', hrow', hretires⟩ := (retire_round lib specs htidy').rows htidy' row.pk row hspecs
    rw [hend, hrow']
    rcases hretires with rfl | ⟨hcode, -⟩
    · rfl
    · rw [hui] at hcode
      cases hcode

end agrees

/-! ### What a sync may do to a row -/

section synced

variable {specs : List ScheduleSpec} {row row' : ScheduledJob}

theorem Synced.overridden (h : Synced specs row row') :
    row'.scheduleOverridden = row.scheduleOverridden := by
  obtain ⟨served, ⟨hfollows, -⟩, rfl | ⟨-, -, -, -, -, hoverridden, -⟩⟩ := h
  · exact hfollows.overridden
  · exact hoverridden.trans hfollows.overridden

theorem Synced.cadence (h : Synced specs row row') (hoverridden : row.scheduleOverridden = true) :
    row'.cadence = row.cadence := by
  obtain ⟨served, ⟨hfollows, -⟩, rfl | ⟨-, -, -, -, -, -, hcadence, -⟩⟩ := h
  · exact hfollows.cadence hoverridden
  · exact hcadence.trans (hfollows.cadence hoverridden)

/-- `enabled` stays as it is with its marker, or a retirement ends, or one begins. -/
theorem Synced.flags (h : Synced specs row row') :
    row'.enabled = row.enabled ∧ row'.autoRetired = row.autoRetired ∨
      row.autoRetired = true ∧ row'.enabled = true ∨
      row.enabled = true ∧ row'.enabled = false ∧ row'.autoRetired = true := by
  obtain ⟨served, ⟨hfollows, hother⟩, rfl | ⟨-, hon, hgone, -, -, -, -, hoff, hmarker⟩⟩ := h
  · rcases hfollows.flags with hsame | ⟨hretired, hon, -⟩
    · exact .inl hsame
    · exact .inr (.inl ⟨hretired, hon⟩)
  · obtain rfl : served = row := hother (hfollows.name ▸ hgone)
    exact .inr (.inr ⟨hon, hoff, hmarker⟩)

end synced

/-! ### An edit -/

section edits

variable {s : Store ω} {row job : ScheduledJob} {filled : Edit}

/-- What an edit makes of a row. -/
structure EditedRow (filled : Edit) (row job : ScheduledJob) : Prop where
  pk : job.pk = row.pk
  name : job.name = row.name
  enabled : job.enabled = filled.enabled
  autoRetired : job.autoRetired = row.autoRetired
  overridden : job.scheduleOverridden =
    (row.scheduleOverridden || filled.cadence.any fun c => row.cadence ≠ c)

/-- A row is saved as it is, with a cursor, or computing that raises. -/
theorem eval_storeJob (engine : Engine ω) (loaded job : ScheduledJob) (s : Store ω) :
    (∃ e, (storeJob engine.lib loaded job).eval (exec engine) s = (.error e, s)) ∨
      ∃ next, (storeJob engine.lib loaded job).eval (exec engine) s =
        (.ok { job with nextRunAt := next }, s.alter job.pk fun _ => { job with nextRunAt := next }) := by
  rw [storeJob, Script.eval_perform_bind]
  dsimp only
  split
  · rw [Script.eval_perform_bind]
    split
    · exact .inl ⟨_, rfl⟩
    · exact .inr ⟨none, rfl⟩
    · rename_i next _
      exact .inr ⟨next, rfl⟩
  · exact .inr ⟨job.nextRunAt, rfl⟩

theorem eval_saveForm (engine : Engine ω) (filled : Edit) (hrow : s.job row.pk = some row) :
    (∃ e, (saveForm engine.lib filled row).eval (exec engine) s = (.error e, s)) ∨
      ∃ job, (saveForm engine.lib filled row).eval (exec engine) s =
        (.ok job, s.alter row.pk fun _ => job) ∧ EditedRow filled row job := by
  rw [saveForm]
  dsimp only
  split
  · rename_i hoverridden
    rcases eval_storeJob engine row _ s with hraise | ⟨next, hsaved⟩
    · exact .inl hraise
    · refine .inr ⟨_, hsaved, rfl, rfl, rfl, rfl, ?_⟩
      have htaken : row.scheduleOverridden = true := hoverridden
      rw [htaken, Bool.true_or]
      exact htaken
  · rename_i hfree
    rw [Script.eval_perform_bind]
    rcases eval_storeJob engine row _ s with hraise | ⟨next, hsaved⟩
    · exact .inl hraise
    · refine .inr ⟨_, hsaved, rfl, rfl, rfl, rfl, ?_⟩
      have hopen : row.scheduleOverridden = false := eq_false_of_ne_true hfree
      have hloaded : (exec engine (.load (filled.apply row).pk) s).1 = some row := hrow
      dsimp only
      rw [hloaded, hopen, Bool.false_or, Option.any_some]
      cases hcadence : filled.cadence with
      | none => simp [Edit.apply, hcadence]
      | some c => simp [Edit.apply, hcadence]

/-- An edit finds no row, or it raises, or it saves what the operator has made of the row. -/
theorem eval_editJob (engine : Engine ω) (pk : ℕ) (filled : Edit) (s : Store ω) :
    (∃ saved, (editJob engine.lib pk filled).eval (exec engine) s = (saved, s) ∧
        saved.any Except.isOk = false) ∨
      ∃ row job, s.job pk = some row ∧ (editJob engine.lib pk filled).eval (exec engine) s =
        (some (.ok job), s.alter pk fun _ => job) ∧ EditedRow filled row job := by
  rw [editJob, Script.eval_perform_bind]
  cases hrow : s.job pk with
  | none =>
    have hloaded : exec engine (.load pk) s = (none, s) := congrArg (·, s) hrow
    rw [hloaded]
    exact .inl ⟨none, rfl, rfl⟩
  | some row =>
    have hloaded : exec engine (.load pk) s = (some row, s) := congrArg (·, s) hrow
    obtain rfl : row.pk = pk := Table.key_of_get hrow
    rw [hloaded]
    dsimp only
    rw [Script.eval_bind]
    rcases eval_saveForm engine filled hrow with ⟨e, hraise⟩ | ⟨job, hsaved, hedited⟩
    · rw [hraise]
      exact .inl ⟨_, rfl, rfl⟩
    · rw [hsaved]
      exact .inr ⟨row, job, rfl, rfl, hedited⟩

end edits

/-! ### Runs -/

section runs

variable {y : Ledger ω} {s' : Store ω} {author : Author}

/-- Where a sync has switched a row off it carries the marker, where an operator has it does not,
and a cadence that an operator has changed is overridden. -/
structure Marked (y : Ledger ω) : Prop where
  tidy : Tidy y.store
  known : ∀ pk, y.store.job pk = none → y.switched pk = none ∧ y.rescheduled pk = false
  retired : ∀ pk row, y.store.job pk = some row → y.switched pk = some .sync →
    row.enabled = false → row.autoRetired = true
  paused : ∀ pk row, y.store.job pk = some row → y.switched pk = some .operator →
    row.enabled = false → row.autoRetired = false
  scheduled : ∀ pk row, y.store.job pk = some row → y.rescheduled pk = true →
    row.scheduleOverridden = true

/-- The marker of a row that stays off stays, a row that is switched off is marked by a sync and
by nobody else, and an override is for good. -/
structure KeepsMarks (author : Author) (row row' : ScheduledJob) : Prop where
  stays : row.enabled = false → row'.enabled = false → row'.autoRetired = row.autoRetired
  switched : row.enabled = true → row'.enabled = false → row'.autoRetired = decide (author = .sync)
  overridden : row.scheduleOverridden = true → row'.scheduleOverridden = true

theorem keepsMarks_refl (author : Author) (row : ScheduledJob) : KeepsMarks author row row :=
  ⟨fun _ _ => rfl, fun hon hoff => absurd (hon.symm.trans hoff) nofun, id⟩

theorem Marked.moveTo (h : Marked y) (htidy : Tidy s')
    (hrows : ∀ pk row, y.store.job pk = some row →
      ∃ row', s'.job pk = some row' ∧ KeepsMarks author row row') :
    Marked (y.moveTo author s') := by
  -- a row is new, or it is one that was there
  have hold : ∀ pk row', s'.job pk = some row' → (y.moveTo author s').switched pk = none ∧
      y.rescheduled pk = false ∨ ∃ row, y.store.job pk = some row ∧ KeepsMarks author row row' ∧
        (y.moveTo author s').switched pk =
          if row.enabled = row'.enabled then y.switched pk else some author := by
    intro pk row' hrow'
    cases hrow : y.store.job pk with
    | none => exact .inl (by simpa [Ledger.moveTo, switches, hrow] using h.known pk hrow)
    | some row =>
      obtain ⟨row'', hrow'', hkeeps⟩ := hrows pk row hrow
      obtain rfl : row'' = row' := Option.some.inj (hrow''.symm.trans hrow')
      refine .inr ⟨row, rfl, hkeeps, ?_⟩
      by_cases hsame : row.enabled = row''.enabled <;>
        simp [Ledger.moveTo, switches, hrow, hrow', hsame]
  refine ⟨htidy, ?_, ?_, ?_, ?_⟩
  · intro pk hnone
    cases hrow : y.store.job pk with
    | none => simpa [Ledger.moveTo, switches, hrow] using h.known pk hrow
    | some row =>
      obtain ⟨row', hrow', -⟩ := hrows pk row hrow
      exact absurd (hnone.symm.trans hrow') nofun
  · intro pk row' hrow' hsync hoff
    rcases hold pk row' hrow' with ⟨hnone, -⟩ | ⟨row, hrow, hkeeps, hswitched⟩
    · exact absurd (hnone.symm.trans hsync) nofun
    · rw [hswitched] at hsync
      cases henabled : row.enabled with
      | false =>
        rw [henabled, hoff, if_pos rfl] at hsync
        exact (hkeeps.stays henabled hoff).trans (h.retired pk row hrow hsync henabled)
      | true =>
        rw [henabled, hoff, if_neg nofun] at hsync
        rw [hkeeps.switched henabled hoff, Option.some.inj hsync]
        rfl
  · intro pk row' hrow' hoperator hoff
    rcases hold pk row' hrow' with ⟨hnone, -⟩ | ⟨row, hrow, hkeeps, hswitched⟩
    · exact absurd (hnone.symm.trans hoperator) nofun
    · rw [hswitched] at hoperator
      cases henabled : row.enabled with
      | false =>
        rw [henabled, hoff, if_pos rfl] at hoperator
        exact (hkeeps.stays henabled hoff).trans (h.paused pk row hrow hoperator henabled)
      | true =>
        rw [henabled, hoff, if_neg nofun] at hoperator
        rw [hkeeps.switched henabled hoff, Option.some.inj hoperator]
        rfl
  · intro pk row' hrow' hscheduled
    rcases hold pk row' hrow' with ⟨-, hnone⟩ | ⟨row, hrow, hkeeps, -⟩
    · exact absurd (hnone.symm.trans hscheduled) nofun
    · exact hkeeps.overridden (h.scheduled pk row hrow hscheduled)

theorem Marked.sync (h : Marked y) (cal : Calendars) (specs : List ScheduleSpec) :
    Marked (y.step engine cal (.sync specs)) := by
  have hround := syncCodeJobs_round engine.lib cal specs h.tidy
  refine h.moveTo (hround.tidy h.tidy) ?_
  intro pk row hrow
  obtain ⟨row', hrow', hsynced⟩ := hround.rows h.tidy pk row hrow
  refine ⟨row', hrow', ?_, ?_, fun hoverridden => hsynced.overridden.trans hoverridden⟩
  · intro hoff hoff'
    rcases hsynced.flags with ⟨-, hmarker⟩ | ⟨-, hon⟩ | ⟨hon, -⟩
    · exact hmarker
    · exact absurd (hoff'.symm.trans hon) nofun
    · exact absurd (hoff.symm.trans hon) nofun
  · intro hon hoff'
    rcases hsynced.flags with ⟨hsame, -⟩ | ⟨-, hon'⟩ | ⟨-, -, hmarker⟩
    · exact absurd (hoff'.symm.trans (hsame.trans hon)) nofun
    · exact absurd (hoff'.symm.trans hon') nofun
    · exact hmarker

/-- An edit of a row that stands under its key. -/
theorem tidy_edit {s : Store ω} {pk : ℕ} {row job : ScheduledJob} {filled : Edit} (htidy : Tidy s)
    (hrow : s.job pk = some row) (hedited : EditedRow filled row job) :
    Tidy (s.alter pk fun _ => job) := by
  have hpk : row.pk = pk := Table.key_of_get hrow
  -- the write is one of the row itself
  have hsame : s.alter pk (fun _ => job) =
      s.alter pk fun r => if r.pk = pk ∧ r.name = row.name then job else r := by
    have hjobs : s.jobs.map (fun r => if r.pk = pk then job else r) =
        s.jobs.map fun r => if r.pk = pk then if r.pk = pk ∧ r.name = row.name then job else r else r := by
      apply List.map_congr_left
      intro r hr
      by_cases hk : r.pk = pk
      · have hget := Table.get_of_mem htidy.pks hr
        rw [hk] at hget
        obtain rfl : r = row := Option.some.inj (hget.symm.trans hrow)
        simp [hk]
      · simp [hk]
    simp only [Store.alter, Table.alter, hjobs]
  rw [hsame]
  have hround := round_alter (R := fun _ _ => True) (fun _ _ _ _ => trivial)
    (f := fun r => if r.pk = pk ∧ r.name = row.name then job else r)
    (fun r => by
      split
      · rename_i h
        exact hedited.pk.trans (hpk.trans h.1.symm)
      · rfl)
    (fun r => by
      split
      · rename_i h
        exact hedited.name.trans h.2.symm
      · rfl) (hpk ▸ hrow) trivial
  rw [hpk] at hround
  exact hround.tidy htidy

theorem Marked.edit (h : Marked y) {cal : Calendars} {pk : ℕ} {filled : Edit}
    (hpermitted : Visit.permitted engine cal y.store (.edit pk filled) = true) :
    Marked (y.step engine cal (.edit pk filled)) := by
  rcases eval_editJob engine pk filled y.store with
    ⟨saved, heval, hlost⟩ | ⟨row, job, hrow, heval, hedited⟩
  · have hmoved : Marked (y.moveTo .operator y.store) :=
      h.moveTo h.tidy fun _ row hrow => ⟨row, hrow, keepsMarks_refl .operator row⟩
    have hstep : y.step engine cal (.edit pk filled) = y.moveTo .operator y.store := by
      simp only [Ledger.step, heval, hlost, Bool.and_false, Bool.false_and, Bool.or_false]
      rfl
    rw [hstep]
    exact hmoved
  · have hget : ∀ k r, y.store.job k = some r → ∃ r', (y.store.alter pk fun _ => job).job k = some r' ∧
        (k = pk → r' = job) ∧ KeepsMarks .operator r r' := by
      intro k r hr
      have hpk : job.pk = pk := hedited.pk.trans (Table.key_of_get hrow)
      rw [Store.job, Store.alter, Table.get_alter_of fun _ _ => hpk]
      by_cases hk : k = pk
      · subst hk
        obtain rfl : r = row := Option.some.inj (hr.symm.trans hrow)
        refine ⟨job, ?_, fun _ => rfl, fun _ _ => hedited.autoRetired, ?_, ?_⟩
        · rw [if_pos rfl]
          exact congrArg (Option.map fun _ => job) hrow
        · intro hon hoff
          rw [Visit.permitted, hrow] at hpermitted
          rw [hedited.enabled] at hoff
          rw [hedited.autoRetired]
          simpa [hon, hoff] using hpermitted
        · intro hoverridden
          rw [hedited.overridden, hoverridden, Bool.true_or]
      · rw [if_neg hk]
        exact ⟨r, hr, fun h => absurd h hk, keepsMarks_refl .operator r⟩
    have hmoved : Marked (y.moveTo .operator (y.store.alter pk fun _ => job)) := by
      refine h.moveTo (tidy_edit h.tidy hrow hedited) ?_
      intro k r hr
      obtain ⟨r', hr', -, hkeeps⟩ := hget k r hr
      exact ⟨r', hr', hkeeps⟩
    have hstep : y.step engine cal (.edit pk filled) =
        { y.moveTo .operator (y.store.alter pk fun _ => job) with
          rescheduled := fun k => y.rescheduled k || (k = pk && reschedules y.store pk filled) } := by
      have hsaved : (some (.ok job) : Option (Except Failure ScheduledJob)).any Except.isOk = true := rfl
      simp only [Ledger.step, heval, hsaved, Bool.and_true]
    rw [hstep]
    refine ⟨hmoved.tidy, ?_, hmoved.retired, hmoved.paused, ?_⟩
    · intro k hnone
      obtain ⟨hswitched, hscheduled⟩ := hmoved.known k hnone
      refine ⟨hswitched, ?_⟩
      have hother : k ≠ pk := by
        rintro rfl
        obtain ⟨r', hr', -⟩ := hget k row hrow
        have hsome := hnone.symm.trans hr'
        cases hsome
      simp only [hother, decide_false, Bool.false_and, Bool.or_false]
      exact hscheduled
    · intro k r' hr' hscheduled
      rcases Bool.or_eq_true_iff.mp hscheduled with hbefore | hnow
      · exact hmoved.scheduled k r' hr' hbefore
      · rw [Bool.and_eq_true, decide_eq_true_eq] at hnow
        obtain ⟨rfl, hposted⟩ := hnow
        obtain ⟨r'', hr'', hjob, -⟩ := hget k row hrow
        obtain rfl : r'' = r' := Option.some.inj (hr''.symm.trans hr')
        rw [reschedules, hrow, Option.any_some] at hposted
        rw [hjob rfl, hedited.overridden, hposted, Bool.or_true]

theorem Marked.step (h : Marked y) {cal : Calendars} {visit : Visit}
    (hpermitted : visit.permitted engine cal y.store = true) : Marked (y.step engine cal visit) := by
  cases visit with
  | sync specs => exact h.sync cal specs
  | edit pk filled => exact h.edit hpermitted
  | elapse d => exact ⟨⟨h.tidy.pks, h.tidy.names⟩, h.known, h.retired, h.paused, h.scheduled⟩

theorem Marked.run (h : Marked y) {cal : Calendars} {visits : List Visit}
    (hpermitted : Ledger.permitted engine cal y visits = true) : Marked (y.run engine cal visits) := by
  induction visits generalizing y with
  | nil => exact h
  | cons visit visits ih =>
    rw [Ledger.permitted, Bool.and_eq_true] at hpermitted
    exact ih (h.step hpermitted.1) hpermitted.2

theorem permitted_append {cal : Calendars} {visits more : List Visit} :
    Ledger.permitted engine cal y (visits ++ more) = true ↔
      Ledger.permitted engine cal y visits = true ∧
        Ledger.permitted engine cal (y.run engine cal visits) more = true := by
  induction visits generalizing y with
  | nil => simp [Ledger.permitted, Ledger.run]
  | cons visit visits ih =>
    rw [List.cons_append, Ledger.permitted, Ledger.permitted, Bool.and_eq_true, Bool.and_eq_true, ih,
      and_assoc]
    rfl

/-- From marked rows, a sync that is permitted respects the operators. -/
theorem Marked.respects (h : Marked y) {cal : Calendars} {specs : List ScheduleSpec}
    (hpermitted : Visit.permitted engine cal y.store (.sync specs) = true) :
    Respects specs y (y.step engine cal (.sync specs)).store := by
  rw [Visit.permitted, Bool.and_eq_true] at hpermitted
  obtain ⟨hrows, hclear⟩ := hpermitted
  have hround := syncCodeJobs_round engine.lib cal specs h.tidy
  have hget : ∀ row ∈ y.store.jobs, y.store.job row.pk = some row :=
    fun row hrow => Table.get_of_mem h.tidy.pks hrow
  refine ⟨?_, ?_, ?_, ?_⟩
  · intro row hrow hui
    apply syncCodeJobs_agrees h.tidy (hget row hrow) hui
    intro spec hspec hname
    have hrow' := List.all_eq_true.mp hrows row hrow
    simp only [hui, reduceCtorEq, decide_false, Bool.false_or, List.all_eq_true] at hrow'
    simpa [hname] using hrow' spec hspec
  · intro row hrow hoperator hoff
    obtain ⟨row', hrow', hsynced⟩ := hround.rows h.tidy row.pk row (hget row hrow)
    refine ⟨row', hrow', ?_⟩
    have hmarker := h.paused row.pk row (hget row hrow) hoperator hoff
    rcases hsynced.flags with ⟨hsame, -⟩ | ⟨hretired, -⟩ | ⟨hon, -⟩
    · exact hsame.trans hoff
    · exact absurd (hmarker.symm.trans hretired) nofun
    · exact absurd (hoff.symm.trans hon) nofun
  · intro row hrow hscheduled
    obtain ⟨row', hrow', hsynced⟩ := hround.rows h.tidy row.pk row (hget row hrow)
    exact ⟨row', hrow', hsynced.cadence (h.scheduled row.pk row (hget row hrow) hscheduled)⟩
  · intro row hrow hsync hoff hname
    exact syncCodeJobs_returns engine.lib cal specs h.tidy hclear (hget row hrow)
      (h.retired row.pk row (hget row hrow) hsync hoff) hoff hname

end runs

/-! ### Specs that come and go -/

/-- An hourly spec without an anchor. -/
def hourly (name : String) : ScheduleSpec where
  taskPath := "apps.tasks.".toList ++ name.toList
  name := name.toList
  scheduleType := .interval
  intervalSpec := "1h".toList

def noAnchors : Calendars where
  year _ _ := 2026
  midnight _ _ _ _ := none
  fromIsoFormat _ := none

def switched (enabled : Bool) : Edit where
  enabled
  allowOverlap := false
  catchUp := .runOnce
  maxRetries := 0

end CwStation.Scheduler
