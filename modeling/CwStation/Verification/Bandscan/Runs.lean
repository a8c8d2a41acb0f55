import CwStation.Model.Bandscan
import Mathlib.Data.List.Induction

/-! # Survey runs are all-or-nothing

At most one worker is under way, and what `_state` says is about its run. -/

namespace CwStation.Bandscan

variable {S : Type}

/-! ## One run -/

/-- The names of the results are those of the bands. -/
def Run.Complete (run : Run S) : Prop :=
  run.results.map BandResult.band = run.request.bands ∧ run.raised = false

/-- `on_finish` has been called at most once, and only with the results of a run in which
every band was swept. -/
def Run.Reported (run : Run S) : Prop :=
  run.finishCalls = [] ∨ (run.finishCalls = [run.results] ∧ run.Complete)

/-- What holds at each place of the worker. -/
def Run.Stage (status : Status S) (run : Run S) : Prop :=
  match run.phase with
  | .launching => run.results = [] ∧ run.raised = false ∧ status.error = "" ∧ run.finishCalls = []
  | .atBand rest => run.results.map BandResult.band ++ rest = run.request.bands ∧
      run.raised = false ∧ status.error = "" ∧ run.finishCalls = []
  | .sweeping band rest => run.results.map BandResult.band ++ band :: rest = run.request.bands ∧
      run.raised = false ∧ status.error = "" ∧ run.finishCalls = []
  | .publishing rest => run.results.map BandResult.band ++ rest = run.request.bands ∧
      run.raised = false ∧ status.error = "" ∧ run.finishCalls = []
  | .failing msg => msg ≠ "" ∧ run.finishCalls = []
  | .closing => (status.error = "" → run.Complete) ∧ run.finishCalls = []
  | .saving => run.finishCalls = [run.results] ∧ run.Complete
  | .saveFailed _ => run.finishCalls = [run.results] ∧ run.Complete
  | .ending id => run.Reported ∧ ∀ n, id = some n → run.returned = some (some n)
  | .ended => False
  | .lost => False

/-- A run under way, with the shared state that describes it. -/
structure Run.Live (status : Status S) (run : Run S) : Prop where
  running : status.running = true
  total : status.total = run.request.bands.length
  counted : status.done = status.results.length
  published : status.results.length ≤ run.results.length
  swept : run.results.length ≤ run.request.bands.length
  surveyId : status.surveyId = none
  stage : run.Stage status

/-- A run that has made its final update. -/
structure Run.Over (status : Status S) (run : Run S) : Prop where
  running : status.running = false
  phase : run.phase = .ended
  counted : status.done = status.results.length
  published : status.results.length ≤ status.total
  reported : run.Reported
  saved : ∀ id, status.surveyId = some id → run.returned = some (some id)

/-- No thread fails to start, and nothing is raised but `Exception`s. -/
def Outcome.Tame : Outcome S → Prop
  | .launched ok => ok = true
  | .swept (.aborted _) => False
  | .saved (.error e) => e.cls ≠ .base
  | _ => True

theorem append_ne_empty {a b : String} (hb : 0 < b.length) : a ++ b ≠ "" := by
  intro h
  have hlen := congrArg String.length h
  simp only [String.length_append, String.length_empty] at hlen
  omega

/-- A sweep that raises leaves an error text behind. -/
theorem sweepBand_raises {band : Band} {sweep : Sweep S} {e : PyExc}
    (htame : Outcome.Tame (.swept sweep)) (h : sweepBand band sweep = .error e) :
    ∃ msg, Run.caught e = .failing msg ∧ msg ≠ "" := by
  cases sweep with
  | scored score => cases h
  | missing =>
    cases h
    exact ⟨_, rfl, by decide⟩
  | timedOut =>
    cases h
    exact ⟨_, rfl, append_ne_empty (by decide)⟩
  | cannotRun msg =>
    cases h
    exact ⟨_, rfl, append_ne_empty (by decide)⟩
  | noOutput msg =>
    cases h
    exact ⟨_, rfl, append_ne_empty (by decide)⟩
  | failed msg =>
    cases h
    refine ⟨_, rfl, ?_⟩
    intro hempty
    have hlen := congrArg String.length hempty
    have hpre : "Sweep failed: ".length = 14 := by decide
    simp only [String.length_append, String.length_empty] at hlen
    omega
  | aborted msg => exact absurd htame id

theorem sweepBand_band {band : Band} {sweep : Sweep S} {result : BandResult S}
    (h : sweepBand band sweep = .ok result) : result.band = band := by
  cases sweep <;> cases h
  rfl

section advance

variable {status status' : Status S} {run run' : Run S}

theorem go_live (hlive : run.Live status) (h : run.advance status .go = some (status', run')) :
    run'.Live status' ∨ run'.Over status' := by
  obtain ⟨hrunning, htotal, hcounted, hpublished, hswept, hid, hstage⟩ := hlive
  rw [Run.Stage] at hstage
  cases hphase : run.phase with
  | launching => simp [Run.advance, hphase] at h
  | sweeping band rest => simp [Run.advance, hphase] at h
  | saving => simp [Run.advance, hphase] at h
  | ended => simp [hphase] at hstage
  | lost => simp [hphase] at hstage
  | atBand rest =>
    simp only [hphase] at hstage
    cases rest with
    | nil =>
      simp only [Run.advance, hphase, Option.some.injEq, Prod.mk.injEq] at h
      obtain ⟨rfl, rfl⟩ := h
      refine .inl ⟨hrunning, htotal, hcounted, hpublished, hswept, hid, ?_⟩
      exact ⟨fun _ => ⟨by simpa using hstage.1, hstage.2.1⟩, hstage.2.2.2⟩
    | cons band rest =>
      simp only [Run.advance, hphase, Option.some.injEq, Prod.mk.injEq] at h
      obtain ⟨rfl, rfl⟩ := h
      exact .inl ⟨hrunning, htotal, hcounted, hpublished, hswept, hid, hstage⟩
  | publishing rest =>
    simp only [hphase] at hstage
    simp only [Run.advance, hphase, Option.some.injEq, Prod.mk.injEq] at h
    obtain ⟨rfl, rfl⟩ := h
    exact .inl ⟨hrunning, htotal, rfl, le_refl _, hswept, hid, hstage⟩
  | failing msg =>
    simp only [hphase] at hstage
    simp only [Run.advance, hphase, Option.some.injEq, Prod.mk.injEq] at h
    obtain ⟨rfl, rfl⟩ := h
    refine .inl ⟨hrunning, htotal, hcounted, hpublished, hswept, hid, ?_⟩
    exact ⟨fun hempty => absurd hempty hstage.1, hstage.2⟩
  | closing =>
    simp only [hphase] at hstage
    by_cases hwants : run.wantsSave status = true
    · have herror : status.error = "" := by
        simp only [Run.wantsSave, Bool.and_eq_true, beq_iff_eq] at hwants
        exact hwants.2
      simp only [Run.advance, hphase, hwants, ite_true, Option.some.injEq, Prod.mk.injEq] at h
      obtain ⟨rfl, rfl⟩ := h
      refine .inl ⟨hrunning, htotal, hcounted, hpublished, hswept, hid, ?_⟩
      refine ⟨?_, hstage.1 herror⟩
      simp [hstage.2]
    · simp only [Run.advance, hphase, hwants, Bool.false_eq_true, ite_false, Option.some.injEq,
        Prod.mk.injEq] at h
      obtain ⟨rfl, rfl⟩ := h
      refine .inl ⟨hrunning, htotal, hcounted, hpublished, hswept, hid, ?_⟩
      exact ⟨.inl hstage.2, by simp⟩
  | saveFailed msg =>
    simp only [hphase] at hstage
    simp only [Run.advance, hphase, Option.some.injEq, Prod.mk.injEq] at h
    obtain ⟨rfl, rfl⟩ := h
    refine .inl ⟨hrunning, htotal, hcounted, hpublished, hswept, hid, ?_⟩
    exact ⟨.inr hstage, by simp⟩
  | ending id =>
    simp only [hphase] at hstage
    simp only [Run.advance, hphase, Option.some.injEq, Prod.mk.injEq] at h
    obtain ⟨rfl, rfl⟩ := h
    refine .inr ⟨rfl, rfl, hcounted, ?_, hstage.1, hstage.2⟩
    rw [htotal]
    exact hpublished.trans hswept

theorem launched_live (hlive : run.Live status)
    (h : run.advance status (.launched true) = some (status', run')) : run'.Live status' := by
  obtain ⟨hrunning, htotal, hcounted, hpublished, hswept, hid, hstage⟩ := hlive
  by_cases hphase : run.phase = .launching
  · rw [Run.Stage, hphase] at hstage
    simp only [Run.advance, hphase, ite_true, Option.some.injEq, Prod.mk.injEq] at h
    obtain ⟨rfl, rfl⟩ := h
    refine ⟨hrunning, htotal, hcounted, hpublished, hswept, hid, ?_⟩
    exact ⟨by simp [hstage.1], hstage.2⟩
  · simp [Run.advance, hphase] at h

theorem swept_live {sweep : Sweep S} (htame : Outcome.Tame (.swept sweep)) (hlive : run.Live status)
    (h : run.advance status (.swept sweep) = some (status', run')) : run'.Live status' := by
  obtain ⟨hrunning, htotal, hcounted, hpublished, hswept, hid, hstage⟩ := hlive
  cases hphase : run.phase with
  | sweeping band rest =>
    rw [Run.Stage, hphase] at hstage
    simp only [Run.advance, hphase, Option.some.injEq, Prod.mk.injEq] at h
    obtain ⟨rfl, rfl⟩ := h
    cases hresult : sweepBand band sweep with
    | ok result =>
      have hband := sweepBand_band hresult
      have hlen := congrArg List.length hstage.1
      simp only [List.length_append, List.length_map, List.length_cons] at hlen
      refine ⟨hrunning, htotal, hcounted, ?_, ?_, hid, ?_⟩
      · simp only [Run.endSweep, List.length_append]
        omega
      · simp only [Run.endSweep, List.length_append, List.length_singleton]
        omega
      · exact ⟨by simpa [Run.endSweep, hband] using hstage.1, hstage.2⟩
    | error e =>
      obtain ⟨msg, hcaught, hmsg⟩ := sweepBand_raises htame hresult
      refine ⟨hrunning, htotal, hcounted, hpublished, hswept, hid, ?_⟩
      simp only [Run.Stage, Run.endSweep, hcaught]
      exact ⟨hmsg, hstage.2.2.2⟩
  | _ => simp [Run.advance, hphase] at h

theorem saved_live {result : Except PyExc (Option ℕ)} (htame : Outcome.Tame (S := S) (.saved result))
    (hlive : run.Live status)
    (h : run.advance status (.saved result) = some (status', run')) : run'.Live status' := by
  obtain ⟨hrunning, htotal, hcounted, hpublished, hswept, hid, hstage⟩ := hlive
  by_cases hphase : run.phase = .saving
  · rw [Run.Stage, hphase] at hstage
    simp only [Run.advance, hphase, ite_true, Option.some.injEq, Prod.mk.injEq] at h
    obtain ⟨rfl, rfl⟩ := h
    cases result with
    | ok id =>
      refine ⟨hrunning, htotal, hcounted, hpublished, hswept, hid, .inr hstage, ?_⟩
      rintro n rfl
      rfl
    | error e =>
      have hcls : e.cls ≠ .base := htame
      have hend : run.endSave (.error e) =
          { run with phase := .saveFailed ("Scanned, but couldn't save: " ++ e.msg) } := by
        simp [Run.endSave, hcls]
      rw [hend]
      exact ⟨hrunning, htotal, hcounted, hpublished, hswept, hid, hstage⟩
  · simp [Run.advance, hphase] at h

/-- A step of the worker keeps its run under way or ends it. -/
theorem advance_live {outcome : Outcome S} (htame : outcome.Tame) (hlive : run.Live status)
    (h : run.advance status outcome = some (status', run')) :
    run'.Live status' ∨ run'.Over status' := by
  cases outcome with
  | go => exact go_live hlive h
  | launched ok =>
    have hok : ok = true := htame
    rw [hok] at h
    exact .inl (launched_live hlive h)
  | swept sweep => exact .inl (swept_live htame hlive h)
  | saved result => exact .inl (saved_live htame hlive h)

end advance

/-! ## The steps a run has left -/

/-- A bound on the steps of the worker that are still to come. -/
def Run.left (run : Run S) : ℕ :=
  match run.phase with
  | .launching => 3 * run.request.bands.length + 7
  | .atBand rest => 3 * rest.length + 6
  | .sweeping _ rest => 3 * rest.length + 8
  | .publishing rest => 3 * rest.length + 7
  | .failing _ => 5
  | .closing => 4
  | .saving => 3
  | .saveFailed _ => 2
  | .ending _ => 1
  | .ended => 0
  | .lost => 0

theorem caught_cases (e : PyExc) : (∃ msg, Run.caught e = .failing msg) ∨ Run.caught e = .closing := by
  unfold Run.caught
  split
  · exact .inl ⟨_, rfl⟩
  · exact .inr rfl
  · exact .inl ⟨_, rfl⟩

theorem left_of_caught {run : Run S} {e : PyExc} (h : run.phase = Run.caught e) : run.left ≤ 5 := by
  rcases caught_cases e with ⟨msg, hcaught⟩ | hcaught
  · simp [Run.left, h, hcaught]
  · simp [Run.left, h, hcaught]

theorem advance_left {status status' : Status S} {run run' : Run S} {outcome : Outcome S}
    (h : run.advance status outcome = some (status', run')) :
    run'.request = run.request ∧ run'.left < run.left := by
  cases outcome with
  | go =>
    cases hphase : run.phase with
    | atBand rest =>
      cases rest with
      | nil =>
        simp only [Run.advance, hphase, Option.some.injEq, Prod.mk.injEq] at h
        rw [← h.2]
        simp [Run.left, hphase]
      | cons band rest =>
        simp only [Run.advance, hphase, Option.some.injEq, Prod.mk.injEq] at h
        rw [← h.2]
        refine ⟨rfl, ?_⟩
        simp only [Run.left, hphase, List.length_cons]
        omega
    | closing =>
      simp only [Run.advance, hphase] at h
      split at h <;>
      · simp only [Option.some.injEq, Prod.mk.injEq] at h
        rw [← h.2]
        simp [Run.left, hphase]
    | publishing rest | failing msg | saveFailed msg | ending id =>
      simp only [Run.advance, hphase, Option.some.injEq, Prod.mk.injEq] at h
      rw [← h.2]
      simp [Run.left, hphase]
    | _ => simp [Run.advance, hphase] at h
  | launched ok =>
    by_cases hphase : run.phase = .launching
    · simp only [Run.advance, hphase, ite_true, Option.some.injEq, Prod.mk.injEq] at h
      rw [← h.2]
      cases ok <;> simp [Run.left, hphase]
    · simp [Run.advance, hphase] at h
  | swept sweep =>
    cases hphase : run.phase with
    | sweeping band rest =>
      simp only [Run.advance, hphase, Option.some.injEq, Prod.mk.injEq] at h
      rw [← h.2]
      cases sweepBand band sweep with
      | ok result => simp [Run.endSweep, Run.left, hphase]
      | error e =>
        have hcaught : (run.endSweep rest (.error e)).left ≤ 5 := left_of_caught rfl
        have hleft : run.left = 3 * rest.length + 8 := by simp [Run.left, hphase]
        exact ⟨rfl, by omega⟩
    | _ => simp [Run.advance, hphase] at h
  | saved result =>
    by_cases hphase : run.phase = .saving
    · simp only [Run.advance, hphase, ite_true, Option.some.injEq, Prod.mk.injEq] at h
      rw [← h.2]
      cases result with
      | ok id => simp [Run.endSave, Run.left, hphase]
      | error e =>
        simp only [Run.endSave]
        split <;> simp [Run.left, hphase]
    · simp [Run.advance, hphase] at h

theorem advance_of_left_zero {status : Status S} {run : Run S} (hleft : run.left = 0)
    (outcome : Outcome S) : run.advance status outcome = none := by
  cases h : run.advance status outcome with
  | none => rfl
  | some p =>
    have hlt := (advance_left h).2
    omega

/-- The worker can go on, whatever its sweep or `on_finish` does. -/
def Run.Ready (status : Status S) (run : Run S) : Prop :=
  (∃ p, run.advance status .go = some p) ∨ (∃ p, run.advance status (.launched true) = some p) ∨
    (∀ sweep, ∃ p, run.advance status (.swept sweep) = some p) ∨
    ∀ result, ∃ p, run.advance status (.saved result) = some p

theorem ready_of_live {status : Status S} {run : Run S} (h : run.Live status) :
    run.Ready status := by
  have hstage := h.stage
  rw [Run.Stage] at hstage
  cases hphase : run.phase with
  | atBand rest =>
    left
    cases rest <;> simp [Run.advance, hphase]
  | closing =>
    left
    simp only [Run.advance, hphase]
    split <;> exact ⟨_, rfl⟩
  | publishing rest | failing msg | saveFailed msg | ending id =>
    left
    simp [Run.advance, hphase]
  | launching =>
    right; left
    simp [Run.advance, hphase]
  | sweeping band rest =>
    right; right; left
    intro sweep
    simp [Run.advance, hphase]
  | saving =>
    right; right; right
    intro result
    simp [Run.advance, hphase]
  | ended => simp [hphase] at hstage
  | lost => simp [hphase] at hstage

/-! ## All threads -/

/-- No label lets a thread fail to start or raise past `except Exception`. -/
def Label.Tame : Label S → Prop
  | .worker _ outcome => outcome.Tame
  | _ => True

namespace Survey

/-- Either nothing was accepted yet, or the last accepted run is under way or over, and
those before it are over. -/
def Sound (s : Survey S) : Prop :=
  (s.runs = [] ∧ s.status = {}) ∨ ∃ old last, s.runs = old ++ [last] ∧
    (∀ run ∈ old, run.phase = .ended ∧ run.Reported) ∧ (last.Live s.status ∨ last.Over s.status)

theorem sound_of_eq {s t : Survey S} (hstatus : t.status = s.status) (hruns : t.runs = s.runs)
    (h : s.Sound) : t.Sound := by
  unfold Sound
  rw [hstatus, hruns]
  exact h

theorem claim_live {request : Request} : ({ request } : Run S).Live (claim request) :=
  ⟨rfl, rfl, rfl, le_refl _, Nat.zero_le _, rfl, rfl, rfl, rfl, rfl⟩

theorem enter_sound {s : Survey S} (h : s.Sound) (k : ℕ) : (s.enter k).Sound := by
  unfold enter
  cases s.pending[k]? with
  | none => exact h
  | some request =>
    by_cases hrunning : s.status.running = true
    · simp only [hrunning, ite_true]
      exact sound_of_eq rfl rfl h
    · simp only [hrunning, Bool.false_eq_true, ite_false]
      refine .inr ⟨s.runs, { request }, rfl, ?_, .inl claim_live⟩
      rcases h with ⟨hruns, -⟩ | ⟨old, last, hruns, hold, hlive | hover⟩
      · simp [hruns]
      · exact absurd hlive.running hrunning
      · intro run hmem
        rw [hruns, List.mem_append, List.mem_singleton] at hmem
        rcases hmem with hmem | rfl
        · exact hold run hmem
        · exact ⟨hover.phase, hover.reported⟩

theorem work_sound {s : Survey S} (h : s.Sound) (i : ℕ) {outcome : Outcome S}
    (htame : outcome.Tame) : (s.work i outcome).Sound := by
  unfold work
  cases hrun : s.runs[i]? with
  | none => exact h
  | some run =>
    simp only
    cases hadv : run.advance s.status outcome with
    | none => exact h
    | some p =>
      obtain ⟨status', run'⟩ := p
      simp only
      rcases h with ⟨hruns, -⟩ | ⟨old, last, hruns, hold, hlast⟩
      · simp [hruns] at hrun
      · have hmoves : run.left ≠ 0 := by
          intro hzero
          rw [advance_of_left_zero hzero] at hadv
          cases hadv
        rw [hruns] at hrun
        by_cases hi : i < old.length
        · -- a run before the last has ended and does not move
          rw [List.getElem?_append_left hi] at hrun
          have hended := (hold run (List.mem_of_getElem? hrun)).1
          exact absurd (by simp [Run.left, hended]) hmoves
        · have hpos : i = old.length := by
            have hlt := (List.getElem?_eq_some_iff.mp hrun).1
            rw [List.length_append, List.length_singleton] at hlt
            omega
          subst hpos
          have hsame : last = run := by simpa using hrun
          subst hsame
          have hlive : last.Live s.status := by
            rcases hlast with hlive | hover
            · exact hlive
            · exact absurd (by simp [Run.left, hover.phase]) hmoves
          refine .inr ⟨old, run', ?_, hold, advance_live htame hlive hadv⟩
          simp [hruns]

theorem step_sound {s : Survey S} (h : s.Sound) (receiver : Bool) {label : Label S}
    (htame : label.Tame) : (s.step receiver label).Sound := by
  cases label with
  | check hasDevice antenna keys saves =>
    rw [step]
    split
    · exact sound_of_eq rfl rfl h
    · exact h
  | accept k => exact enter_sound h k
  | worker i outcome => exact work_sound h i htame

/-- The threads after some steps, each with what `radiodaemon` said at it. -/
def after (labels : List (Bool × Label S)) : Survey S :=
  labels.foldl (fun s l => s.step l.1 l.2) {}

theorem after_concat (labels : List (Bool × Label S)) (l : Bool × Label S) :
    after (labels ++ [l]) = (after labels).step l.1 l.2 := by
  simp [after]

theorem after_sound {labels : List (Bool × Label S)} (htame : ∀ l ∈ labels, l.2.Tame) :
    (after labels).Sound := by
  induction labels using List.reverseRecOn with
  | nil => exact .inl ⟨rfl, rfl⟩
  | append_singleton labels l ih =>
    rw [after_concat]
    apply step_sound
    · exact ih fun l' hl' => htame l' (by simp [hl'])
    · exact htame l (by simp)

/-- The label makes the worker of run `i` move. -/
def moves (i : ℕ) (s : Survey S) : Label S → Bool
  | .worker j outcome =>
      decide (j = i) && (s.runs[i]?.bind fun run => run.advance s.status outcome).isSome
  | _ => false

/-- How often the worker of run `i` moved. -/
def moved (i : ℕ) (labels : List (Bool × Label S)) : ℕ :=
  (labels.foldl (fun acc l => (acc.1.step l.1 l.2, acc.2 + if moves i acc.1 l.2 then 1 else 0))
    (({} : Survey S), 0)).2

theorem moved_concat (i : ℕ) (labels : List (Bool × Label S)) (l : Bool × Label S) :
    moved i (labels ++ [l]) = moved i labels + if moves i (after labels) l.2 then 1 else 0 := by
  have hstate : ∀ (ls : List (Bool × Label S)) (s : Survey S) (n : ℕ),
      (ls.foldl (fun acc l => (acc.1.step l.1 l.2, acc.2 + if moves i acc.1 l.2 then 1 else 0))
        (s, n)).1 = ls.foldl (fun s l => s.step l.1 l.2) s := by
    intro ls
    induction ls with
    | nil =>
      intro s n
      rfl
    | cons l ls ih =>
      intro s n
      exact ih _ _
  simp only [moved, List.foldl_append, List.foldl_cons, List.foldl_nil, hstate, after]
  rfl

/-- What one step does to the runs: it moves one worker, adds a run, or leaves them. -/
theorem step_runs (s : Survey S) (receiver : Bool) (label : Label S) :
    (∃ j run status' run' outcome, label = .worker j outcome ∧ s.runs[j]? = some run ∧
      run.advance s.status outcome = some (status', run') ∧
      (s.step receiver label).runs = s.runs.set j run') ∨
    (∃ request, (s.step receiver label).runs = s.runs ++ [({ request } : Run S)] ∧
      ∀ i, moves i s label = false) ∨
    ((s.step receiver label).runs = s.runs ∧ ∀ i, moves i s label = false) := by
  cases label with
  | check hasDevice antenna keys saves =>
    right; right
    refine ⟨?_, fun i => rfl⟩
    rw [step]
    split <;> rfl
  | accept k =>
    right
    rw [step, enter]
    cases s.pending[k]? with
    | none => exact .inr ⟨rfl, fun i => rfl⟩
    | some request =>
      by_cases hrunning : s.status.running = true
      · exact .inr ⟨by simp [hrunning], fun i => rfl⟩
      · exact .inl ⟨request, by simp [hrunning], fun i => rfl⟩
  | worker j outcome =>
    rw [step, work]
    cases hrun : s.runs[j]? with
    | none =>
      right; right
      refine ⟨rfl, ?_⟩
      intro i
      by_cases hij : j = i
      · simp [moves, ← hij, hrun]
      · simp [moves, hij]
    | some run =>
      cases hadv : run.advance s.status outcome with
      | none =>
        right; right
        refine ⟨by simp [hadv], ?_⟩
        intro i
        by_cases hij : j = i
        · simp [moves, ← hij, hrun, hadv]
        · simp [moves, hij]
      | some p =>
        left
        exact ⟨j, run, p.1, p.2, outcome, rfl, hrun, hadv, by simp [hadv]⟩

/-- A worker makes a bounded number of steps. -/
theorem moved_bound (labels : List (Bool × Label S)) (i : ℕ) :
    (∀ run, (after labels).runs[i]? = some run →
      moved i labels + run.left ≤ 3 * run.request.bands.length + 7) ∧
    ((after labels).runs[i]? = none → moved i labels = 0) := by
  induction labels using List.reverseRecOn with
  | nil => simp [after, moved]
  | append_singleton labels l ih =>
    rw [after_concat, moved_concat]
    rcases step_runs (after labels) l.1 l.2 with
      ⟨j, run, status', run', outcome, hlabel, hrun, hadv, hruns⟩ | ⟨request, hruns, hstill⟩ |
      ⟨hruns, hstill⟩
    · have hspec := advance_left hadv
      rw [hruns, List.getElem?_set]
      by_cases hij : j = i
      · subst hij
        have hmoves : moves j (after labels) l.2 = true := by simp [moves, hlabel, hrun, hadv]
        have hlt : j < (after labels).runs.length := (List.getElem?_eq_some_iff.mp hrun).1
        have hbound := ih.1 run hrun
        simp only [ite_true, hlt, hmoves]
        refine ⟨?_, by simp⟩
        intro run'' heq
        rw [← Option.some.inj heq, hspec.1]
        omega
      · have hmoves : moves i (after labels) l.2 = false := by simp [moves, hlabel, hij]
        simpa [hij, hmoves] using ih
    · rw [hruns, hstill i]
      simp only [Bool.false_eq_true, ite_false, Nat.add_zero]
      by_cases hi : i < (after labels).runs.length
      · rw [List.getElem?_append_left hi]
        exact ih
      · have hnone : (after labels).runs[i]? = none := by
          rw [List.getElem?_eq_none_iff]
          omega
        refine ⟨?_, fun _ => ih.2 hnone⟩
        intro run hrun
        rw [ih.2 hnone]
        rw [List.getElem?_append_right (by omega)] at hrun
        have hmem := List.mem_of_getElem? hrun
        rw [List.mem_singleton] at hmem
        subst hmem
        simp [Run.left]
    · rw [hruns, hstill i]
      simpa using ih

/-! ## All or nothing -/

/-- What every reader of the shared state may rely on. -/
structure AllOrNothing (s : Survey S) : Prop where
  /-- At most one worker has not made its final update. -/
  single : ∀ (i j : ℕ) (a b : Run S), s.runs[i]? = some a → s.runs[j]? = some b → a.phase ≠ .ended →
    b.phase ≠ .ended → i = j
  counted : s.status.done = s.status.results.length ∧ s.status.done ≤ s.status.total
  finish : ∀ run ∈ s.runs, run.finishCalls.length ≤ 1 ∧ ∀ results ∈ run.finishCalls,
    results.map BandResult.band = run.request.bands ∧ run.raised = false
  saved : ∀ id, s.status.surveyId = some id → ∃ run, s.runs.getLast? = some run ∧
    run.returned = some (some id)
  running : s.status.running = true ↔ ∃ run ∈ s.runs, run.phase ≠ .ended
  ready : ∀ run ∈ s.runs, run.phase = .ended ∨ run.Ready s.status

theorem Reported.calls {run : Run S} (h : run.Reported) :
    run.finishCalls.length ≤ 1 ∧ ∀ results ∈ run.finishCalls,
      results.map BandResult.band = run.request.bands ∧ run.raised = false := by
  rcases h with hnone | ⟨hone, hcomplete⟩
  · simp [hnone]
  · rw [hone]
    refine ⟨le_refl _, ?_⟩
    intro results hmem
    rw [List.mem_singleton] at hmem
    rw [hmem]
    exact hcomplete

theorem reported_of_live {status : Status S} {run : Run S} (h : run.Live status) : run.Reported := by
  have hstage := h.stage
  rw [Run.Stage] at hstage
  cases hphase : run.phase with
  | launching | atBand rest | sweeping band rest | publishing rest =>
    simp only [hphase] at hstage
    exact .inl hstage.2.2.2
  | failing msg | closing =>
    simp only [hphase] at hstage
    exact .inl hstage.2
  | saving | saveFailed msg =>
    simp only [hphase] at hstage
    exact .inr hstage
  | ending id =>
    simp only [hphase] at hstage
    exact hstage.1
  | ended | lost => simp [hphase] at hstage

theorem phase_of_live {status : Status S} {run : Run S} (h : run.Live status) :
    run.phase ≠ .ended := by
  intro hphase
  have hstage := h.stage
  simp [Run.Stage, hphase] at hstage

theorem Sound.allOrNothing {s : Survey S} (h : s.Sound) : s.AllOrNothing := by
  rcases h with ⟨hruns, hstatus⟩ | ⟨old, last, hruns, hold, hlast⟩
  · refine ⟨?_, ?_, ?_, ?_, ?_, ?_⟩
    · intro i j a b ha
      simp [hruns] at ha
    · simp [hstatus]
    · simp [hruns]
    · simp [hstatus]
    · simp [hstatus, hruns]
    · simp [hruns]
  · have hindex : ∀ (i : ℕ) (a : Run S), s.runs[i]? = some a → a.phase ≠ .ended → i = old.length := by
      intro i a ha hphase
      rw [hruns] at ha
      have hlt := (List.getElem?_eq_some_iff.mp ha).1
      rw [List.length_append, List.length_singleton] at hlt
      by_contra hne
      rw [List.getElem?_append_left (by omega)] at ha
      exact hphase (hold a (List.mem_of_getElem? ha)).1
    have hreported : ∀ run ∈ s.runs, run.Reported := by
      intro run hmem
      rw [hruns, List.mem_append, List.mem_singleton] at hmem
      rcases hmem with hmem | rfl
      · exact (hold run hmem).2
      · rcases hlast with hlive | hover
        · exact reported_of_live hlive
        · exact hover.reported
    refine ⟨?_, ?_, fun run hmem => Reported.calls (hreported run hmem), ?_, ?_, ?_⟩
    · intro i j a b ha hb hpa hpb
      rw [hindex i a ha hpa, hindex j b hb hpb]
    · rcases hlast with hlive | hover
      · refine ⟨hlive.counted, ?_⟩
        rw [hlive.counted, hlive.total]
        exact hlive.published.trans hlive.swept
      · exact ⟨hover.counted, hover.counted ▸ hover.published⟩
    · intro id hid
      refine ⟨last, by simp [hruns], ?_⟩
      rcases hlast with hlive | hover
      · rw [hlive.surveyId] at hid
        cases hid
      · exact hover.saved id hid
    · rcases hlast with hlive | hover
      · exact iff_of_true hlive.running ⟨last, by simp [hruns], phase_of_live hlive⟩
      · refine iff_of_false (by simp [hover.running]) ?_
        rintro ⟨run, hmem, hphase⟩
        rw [hruns, List.mem_append, List.mem_singleton] at hmem
        rcases hmem with hmem | rfl
        · exact hphase (hold run hmem).1
        · exact hphase hover.phase
    · intro run hmem
      rw [hruns, List.mem_append, List.mem_singleton] at hmem
      rcases hmem with hmem | rfl
      · exact .inl (hold run hmem).1
      · rcases hlast with hlive | hover
        · exact .inr (ready_of_live hlive)
        · exact .inl hover.phase

/-- Whatever the interleaving, surveys are all-or-nothing, and every accepted run ends: its
worker can go on until its final update, which comes after a bounded number of its steps. -/
theorem surveys_all_or_nothing (labels : List (Bool × Label S))
    (htame : ∀ l ∈ labels, l.2.Tame) :
    (after labels).AllOrNothing ∧ ∀ (i : ℕ) (run : Run S), (after labels).runs[i]? = some run →
      moved i labels + run.left ≤ 3 * run.request.bands.length + 7 :=
  ⟨(after_sound htame).allOrNothing, fun i => (moved_bound labels i).1⟩

/-- A call for two bands, to be kept, up to the start of its worker. -/
def twoBands : List (Bool × Label ℕ) := [
  (false, .check true "whip".toList ["fm".toList, "2m".toList] true), (false, .accept 0),
  (false, .worker 0 (.launched true))]

/-- One sweep with a score. -/
def oneSweep : List (Bool × Label ℕ) := [
  (false, .worker 0 .go), (false, .worker 0 (.swept (.scored 20))), (false, .worker 0 .go)]

/-- Both bands are swept, and `on_finish` is called. -/
def sweptTwice : List (Bool × Label ℕ) :=
  twoBands ++ oneSweep ++ oneSweep ++ [(false, .worker 0 .go), (false, .worker 0 .go)]

theorem sweptTwice_all_or_nothing :
    (after (sweptTwice ++ [(false, .worker 0 (.saved (.ok (some 7)))), (false, .worker 0 .go)])).status =
      { running := false, done := 2, total := 2, current := [],
        results := [⟨⟨"fm".toList, "FM broadcast".toList⟩, 20⟩, ⟨⟨"2m".toList, "2 m ham".toList⟩, 20⟩],
        error := "", antenna := "whip".toList, surveyId := some 7, saving := true } ∧
    (after (sweptTwice ++ [(false, .worker 0 (.saved (.ok (some 7)))), (false, .worker 0 .go)])).AllOrNothing := by
  refine ⟨by decide +kernel, (surveys_all_or_nothing _ ?_).1⟩
  intro l hl
  simp only [sweptTwice, twoBands, oneSweep, List.cons_append, List.nil_append, List.mem_cons,
    List.not_mem_nil, or_false] at hl
  rcases hl with rfl | rfl | rfl | rfl | rfl | rfl | rfl | rfl | rfl | rfl | rfl | rfl | rfl <;>
    trivial

/-- An `on_finish` that raises past `except Exception`, a sweep that does so, and a thread
that does not start. -/
theorem raised_past_handlers :
    ¬ (after (sweptTwice ++ [(false, .worker 0 (.saved (.error ⟨.base, "exit"⟩)))])).AllOrNothing ∧
    ¬ (after (twoBands ++ oneSweep ++ [(false, .worker 0 .go),
      (false, .worker 0 (.swept (.aborted "exit"))), (false, .worker 0 .go)])).AllOrNothing ∧
    ¬ (after (twoBands.dropLast ++ [(false, .worker 0 (.launched false))])).AllOrNothing := by
  have hstuck : ∀ s : Survey ℕ, (∃ run ∈ s.runs, run.phase = .lost) → ¬ s.AllOrNothing := by
    rintro s ⟨run, hmem, hphase⟩ h
    have hleft : run.left = 0 := by simp [Run.left, hphase]
    rcases h.ready run hmem with hended | ⟨p, hp⟩ | ⟨p, hp⟩ | hswept | hsaved
    · rw [hphase] at hended
      cases hended
    · simp [advance_of_left_zero hleft] at hp
    · simp [advance_of_left_zero hleft] at hp
    · obtain ⟨p, hp⟩ := hswept .missing
      simp [advance_of_left_zero hleft] at hp
    · obtain ⟨p, hp⟩ := hsaved (.ok none)
      simp [advance_of_left_zero hleft] at hp
  refine ⟨hstuck _ (by decide +kernel), ?_, hstuck _ (by decide +kernel)⟩
  intro h
  have hpartial : ∃ run ∈ (after (twoBands ++ oneSweep ++ [(false, .worker 0 .go),
      (false, .worker 0 (.swept (.aborted "exit"))), (false, .worker 0 .go)])).runs,
      ∃ results ∈ run.finishCalls, run.raised = true := by decide +kernel
  obtain ⟨run, hmem, results, hcall, hraised⟩ := hpartial
  have hclean := ((h.finish run hmem).2 results hcall).2
  rw [hraised] at hclean
  cases hclean

end Survey

end CwStation.Bandscan
