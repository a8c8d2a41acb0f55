import CwStation.Model.Telemetry
import Mathlib.Tactic.Common

/-! # Which capture window is in force -/

namespace CwStation.Telemetry

variable {u : Unicode} {s : Settings} {windows : List LogCaptureWindow} {now : ℤ}

/-! ## What a request asks for -/

/-- The level of a request. -/
def CaptureRequest.levelAsked (u : Unicode) (request : CaptureRequest) : ℤ :=
  levelNumber u (.name (requestedLevel (u.upper (strip request.level.text))))

/-- The minutes of a request. -/
def CaptureRequest.minutesAsked (request : CaptureRequest) : ℤ :=
  if request.minutes.blank then 15 else request.minutes.toInt.toOption.getD 0

/-- When the window of a request ends. -/
def CaptureRequest.endsAt (s : Settings) (now : ℤ) (request : CaptureRequest) : ℤ :=
  now + max 1 (min request.minutesAsked s.maxCaptureMinutes) * 60000000

theorem now_lt_endsAt (request : CaptureRequest) : now < request.endsAt s now := by
  have hminutes := le_max_left 1 (min request.minutesAsked s.maxCaptureMinutes)
  unfold CaptureRequest.endsAt
  omega

/-! ## Names of levels -/

theorem levels_upperCase : ∀ pair ∈ levels, ∀ c ∈ pair.1, c.toNat < 128 ∧ c.toUpper = c := by
  have hall : ∀ pair ∈ levels,
      (pair.1.all fun c => decide (c.toNat < 128 ∧ c.toUpper = c)) = true := by decide
  intro pair hpair c hc
  exact of_decide_eq_true (List.all_eq_true.mp (hall pair hpair) c hc)

theorem upper_level {level : Str} {n : ℤ} (h : levels.lookup level = some n) :
    u.upper level = level := by
  obtain ⟨before, after, hsplit, -⟩ := List.lookup_eq_some_iff.mp h
  have hmem : (level, n) ∈ levels := by
    rw [hsplit]
    simp
  exact upper_of_upperCase (levels_upperCase (level, n) hmem)

/-- A name of `LEVELS` means to `logging` what it means to the queries. -/
theorem levelNumber_level {level : Str} {n : ℤ} (h : levels.lookup level = some n) :
    levelNumber u (.name level) = n := by
  have hnames : nameToLevel.lookup level = some n := by
    rw [nameToLevel, List.lookup_append, h]
    rfl
  rw [levelNumber, upper_level h, hnames]
  rfl

/-! ## Accepted requests -/

theorem parseLevel_ok {value : Value} {level : Str} (h : parseLevel u value = .ok level) :
    level = u.upper (strip value.text) ∧ (level = [] ∨ (levels.lookup level).isSome = true) := by
  simp only [parseLevel] at h
  split at h
  · rename_i hnil
    cases h
    exact ⟨hnil.symm, .inl rfl⟩
  · split at h
    · rename_i hsome
      cases h
      exact ⟨rfl, .inr hsome⟩
    · cases h

theorem parseCaptureLevel_ok {value : Value} {level : Str}
    (h : parseCaptureLevel u s value = .ok level) :
    level = requestedLevel (u.upper (strip value.text)) ∧
      ∃ n, levels.lookup level = some n ∧ n < s.baselineLevel u := by
  unfold parseCaptureLevel at h
  cases hparse : parseLevel u value with
  | error e => rw [hparse] at h; cases h
  | ok parsed =>
    obtain ⟨htext, hknown⟩ := parseLevel_ok hparse
    have hlevel : (levels.lookup (requestedLevel parsed)).isSome = true := by
      cases hknown with
      | inl hnil => rw [hnil]; decide
      | inr hsome =>
        unfold requestedLevel
        split
        · decide
        · exact hsome
    obtain ⟨n, hn⟩ := Option.isSome_iff_exists.mp hlevel
    rw [hparse] at h
    simp only [bind, Except.bind, hn, Option.getD_some] at h
    split at h
    · cases h
    · rename_i hlt
      cases h
      exact ⟨by rw [htext], n, hn, not_le.mp hlt⟩

theorem parseInt_ok {value : Value} {field : Str} {minimum n : ℤ}
    (h : parseInt value field minimum none = .ok n) : value.toInt = .ok n := by
  unfold parseInt at h
  cases hvalue : value.toInt with
  | error e => rw [hvalue] at h; cases e <;> cases h
  | ok parsed =>
    rw [hvalue] at h
    simp only at h
    split at h
    · cases h
    · cases h
      rfl

theorem start_ok {level actor note : Str} {minutes : ℤ} {w : LogCaptureWindow}
    (h : start u s now level minutes actor note = .ok w) :
    w.level = u.upper level ∧
      w.expiresAt = now + max 1 (min minutes s.maxCaptureMinutes) * 60000000 := by
  simp only [start] at h
  split at h
  · cases h
  · cases h
    exact ⟨rfl, rfl⟩

/-- The window of an accepted request. -/
structure Opened (u : Unicode) (s : Settings) (now : ℤ) (request : CaptureRequest)
    (w : LogCaptureWindow) : Prop where
  level : levelNumber u (.name w.level) = request.levelAsked u
  below : request.levelAsked u < s.baselineLevel u
  expiresAt : w.expiresAt = request.endsAt s now

theorem openCapture_ok {db : LatestFirst} {request : CaptureRequest} {opened : LogCaptureWindow}
    {state : CaptureState} (h : openCapture u s db now windows request = .ok (opened, state)) :
    Opened u s now request opened := by
  simp only [openCapture, bind, Except.bind] at h
  split at h
  · cases h
  · split at h
    · cases h
    · rename_i hlevel
      split at h
      · cases h
      · rename_i minutes hminutes
        split at h
        · cases h
        · rename_i w hstart
          cases h
          obtain ⟨htext, n, hn, hlt⟩ := parseCaptureLevel_ok hlevel
          obtain ⟨hw, hends⟩ := start_ok hstart
          have hasked : request.levelAsked u = n := by
            rw [CaptureRequest.levelAsked, ← htext, levelNumber_level hn]
          have hcount : minutes = request.minutesAsked := by
            have hint := parseInt_ok hminutes
            unfold CaptureRequest.minutesAsked
            split at hint
            · rename_i hblank
              cases hint
              rw [if_pos hblank]
            · rename_i hblank
              rw [if_neg hblank, hint]
              rfl
          refine ⟨?_, hasked ▸ hlt, ?_⟩
          · rw [hw, upper_level hn, levelNumber_level hn, hasked]
          · rw [hends, hcount]
            rfl

/-! ## The window in force -/

theorem activeWindow_none {db : LatestFirst} :
    activeWindow db windows now = none ↔ ∀ w ∈ windows, w.expiresAt ≤ now := by
  simp [activeWindow, db.first_none]

/-- The window in force is open, and no window expires later. -/
theorem activeWindow_some {db : LatestFirst} {w : LogCaptureWindow}
    (h : activeWindow db windows now = some w) :
    (w ∈ windows ∧ now < w.expiresAt) ∧ ∀ v ∈ windows, v.expiresAt ≤ w.expiresAt := by
  have hmem := db.first_mem _ _ h
  rw [List.mem_filter, decide_eq_true_eq] at hmem
  refine ⟨hmem, ?_⟩
  intro v hv
  by_cases hopen : now < v.expiresAt
  · exact db.first_latest _ _ h v (List.mem_filter.mpr ⟨hv, decide_eq_true hopen⟩)
  · exact (not_lt.mp hopen).trans hmem.2.le

/-- A database that answers with one row where it may. -/
def LatestFirst.prefer (w : LogCaptureWindow) : LatestFirst where
  first ws :=
    if w ∈ ws ∧ ∀ v ∈ ws, v.expiresAt ≤ w.expiresAt then some w
    else LatestFirst.oldest.first ws
  first_none ws := by
    split
    · rename_i h
      simp [List.ne_nil_of_mem h.1]
    · exact LatestFirst.oldest.first_none ws
  first_mem ws v h := by
    split at h
    · rename_i hw
      cases h
      exact hw.1
    · exact LatestFirst.oldest.first_mem ws v h
  first_latest ws v h := by
    split at h
    · rename_i hw
      cases h
      exact hw.2
    · exact LatestFirst.oldest.first_latest ws v h

theorem activeWindow_prefer {w : LogCaptureWindow} (hw : w ∈ windows) (hopen : now < w.expiresAt)
    (hlatest : ∀ v ∈ windows, v.expiresAt ≤ w.expiresAt) :
    activeWindow (LatestFirst.prefer w) windows now = some w := by
  refine if_pos ⟨List.mem_filter.mpr ⟨hw, decide_eq_true hopen⟩, ?_⟩
  intro v hv
  exact hlatest v (List.mem_of_mem_filter hv)

/-- The opened window sets the level as long as it lasts, however the database chooses between
windows that expire together, exactly if no window that lasts as long and longest asks for
less detail. -/
theorem opened_window_in_force_iff {db : LatestFirst} {request : CaptureRequest}
    {opened : LogCaptureWindow} {state : CaptureState}
    (h : openCapture u s db now windows request = .ok (opened, state)) :
    (∀ db' : LatestFirst, ∀ t, now ≤ t → t < opened.expiresAt →
      effectiveLevel u s (activeWindow db' (windows ++ [opened]) t) ≤ request.levelAsked u) ↔
    ∀ w ∈ windows, request.endsAt s now ≤ w.expiresAt →
      (∀ v ∈ windows, v.expiresAt ≤ w.expiresAt) →
        levelNumber u (.name w.level) ≤ request.levelAsked u := by
  obtain ⟨hlevel, hbelow, hends⟩ := openCapture_ok h
  have hnow := hends ▸ @now_lt_endsAt s now request
  rw [← hends]
  constructor
  · intro hforce w hw hlater hlatest
    have hall : ∀ v ∈ windows ++ [opened], v.expiresAt ≤ w.expiresAt := by
      intro v hv
      rcases List.mem_append.mp hv with hv | hv
      · exact hlatest v hv
      · rw [List.mem_singleton.mp hv]
        exact hlater
    have hactive := activeWindow_prefer (List.mem_append_left [opened] hw)
      (hnow.trans_le hlater) hall
    have hlow := hforce (LatestFirst.prefer w) now le_rfl hnow
    rw [hactive] at hlow
    rcases min_le_iff.mp hlow with hlow | hlow
    · exact hlow
    · exact absurd hlow (not_le.mpr hbelow)
  · intro hquiet db' t hstart hend
    cases hactive : activeWindow db' (windows ++ [opened]) t with
    | none =>
        have hclosed := activeWindow_none.mp hactive opened (by simp)
        exact absurd hend (not_lt.mpr hclosed)
    | some w =>
        obtain ⟨⟨hw, hopen⟩, hlatest⟩ := activeWindow_some hactive
        refine (min_le_left _ _).trans ?_
        rcases List.mem_append.mp hw with hw | hw
        · refine hquiet w hw (hlatest opened (by simp)) ?_
          intro v hv
          exact hlatest v (List.mem_append_left _ hv)
        · rw [List.mem_singleton.mp hw, hlevel]

/-- A request for fifteen minutes of `DEBUG`. -/
def debugRequest : CaptureRequest where
  level := Value.ofText .ascii id "DEBUG".toList
  minutes := Value.ofInt 15
  note := Value.ofText .ascii id "slow tuning".toList

/-- An `INFO` window of half an hour. -/
def halfHourOfInfo : LogCaptureWindow where
  level := "INFO".toList
  expiresAt := 30 * 60000000
  startedAt := 0

/-- The window the request opens when the half hour is a minute old. -/
def debugWindow : LogCaptureWindow where
  level := "DEBUG".toList
  expiresAt := 16 * 60000000
  startedAt := 60000000
  note := "slow tuning".toList

/-- What the request is told beside a table of windows. -/
def debugState (db : LatestFirst) (windows : List LogCaptureWindow) : CaptureState where
  window := activeWindow db (windows ++ [debugWindow]) 60000000
  baselineLevel := "WARNING".toList
  maxMinutes := 120
  requestedMinutes := 15
  clamped := false

theorem debugRequest_accepted (db : LatestFirst) (windows : List LogCaptureWindow) :
    openCapture .ascii {} db 60000000 windows debugRequest =
      .ok (debugWindow, debugState db windows) :=
  rfl

/-- Alone, the `DEBUG` window is in force a second after it is opened. -/
theorem debug_window_in_force :
    effectiveLevel .ascii {} (activeWindow .oldest ([] ++ [debugWindow]) 61000000) ≤
      debugRequest.levelAsked .ascii :=
  (opened_window_in_force_iff (debugRequest_accepted .oldest [])).mpr (by simp) .oldest 61000000
    (by decide) (by decide)

/-- Opened inside the half hour of `INFO`, it is accepted and changes nothing. -/
theorem debug_window_shadowed :
    openCapture .ascii {} .oldest 60000000 [halfHourOfInfo] debugRequest =
        .ok (debugWindow, debugState .oldest [halfHourOfInfo]) ∧
      60000000 < debugWindow.expiresAt ∧
      debugRequest.levelAsked .ascii = 10 ∧
      effectiveLevel .ascii {} (activeWindow .oldest ([halfHourOfInfo] ++ [debugWindow])
        60000000) = 20 :=
  ⟨debugRequest_accepted _ _, by decide, by decide +kernel, by decide +kernel⟩

/-! ## A history of captures

Whatever operators open, capturing is back at the baseline once each opening is older than the
longest window or has a stop behind it. -/

inductive CaptureEvent
  | opened (now : ℤ) (request : CaptureRequest)
  | stopped (now : ℤ)

/-- The table after an event. A refused request opens no window. -/
def afterCapture (u : Unicode) (s : Settings) (db : LatestFirst) (windows : List LogCaptureWindow) :
    CaptureEvent → List LogCaptureWindow
  | .opened now request =>
      match openCapture u s db now windows request with
      | .ok (window, _) => windows ++ [window]
      | .error _ => windows
  | .stopped now => (stop windows now).1

def captured (u : Unicode) (s : Settings) (db : LatestFirst) (events : List CaptureEvent) :
    List LogCaptureWindow := events.foldl (afterCapture u s db) []

/-- The longest window. -/
def Settings.longest (s : Settings) : ℤ := max 1 s.maxCaptureMinutes * 60000000

/-- A stop by a moment. -/
def StoppedBy (t : ℤ) (events : List CaptureEvent) : Prop := ∃ now ≤ t, .stopped now ∈ events

/-- Each opening is older than the longest window, or has a stop behind it. -/
def Lapsed (s : Settings) (t : ℤ) : List CaptureEvent → Prop
  | [] => True
  | .opened now _ :: events => (now + s.longest ≤ t ∨ StoppedBy t events) ∧ Lapsed s t events
  | .stopped _ :: events => Lapsed s t events

theorem endsAt_le (request : CaptureRequest) : request.endsAt s now ≤ now + s.longest := by
  unfold CaptureRequest.endsAt Settings.longest
  have hcap : max 1 (min request.minutesAsked s.maxCaptureMinutes) ≤ max 1 s.maxCaptureMinutes :=
    max_le_max_left 1 (min_le_right _ _)
  linarith

/-- A stop closes what is open, and opens nothing. -/
theorem expiresAt_stop {w : LogCaptureWindow} (hw : w ∈ (stop windows now).1) :
    w.expiresAt ≤ now ∧ ∃ v ∈ windows, w.expiresAt ≤ v.expiresAt := by
  obtain ⟨v, hv, rfl⟩ := List.mem_map.mp hw
  split
  case isTrue hopen => exact ⟨le_rfl, v, hv, hopen.le⟩
  case isFalse hclosed => exact ⟨not_lt.mp hclosed, v, hv, le_rfl⟩

/-- At the moment every window of the table is over, or a stop that closes it is still to come. -/
theorem over_of_lapsed {db : LatestFirst} {t : ℤ} {events : List CaptureEvent}
    (hevents : Lapsed s t events) (hwindows : ∀ w ∈ windows, w.expiresAt ≤ t ∨ StoppedBy t events) :
    ∀ w ∈ events.foldl (afterCapture u s db) windows, w.expiresAt ≤ t := by
  induction events generalizing windows with
  | nil =>
    intro w hw
    rcases hwindows w hw with hover | ⟨_, _, hstop⟩
    · exact hover
    · exact absurd hstop List.not_mem_nil
  | cons e events ih =>
    rw [List.foldl_cons]
    cases e with
    | opened now request =>
      have hold : ∀ w ∈ windows, w.expiresAt ≤ t ∨ StoppedBy t events := by
        intro w hw
        refine (hwindows w hw).imp_right ?_
        rintro ⟨later, hlater, hstop⟩
        exact ⟨later, hlater, by simpa using hstop⟩
      refine ih hevents.2 ?_
      cases hopen : openCapture u s db now windows request with
      | error e => simpa [afterCapture, hopen] using hold
      | ok r =>
        obtain ⟨opened, state⟩ := r
        have hends := (openCapture_ok hopen).expiresAt
        simp only [afterCapture, hopen, List.forall_mem_append, List.forall_mem_singleton]
        refine ⟨hold, hevents.1.imp_left fun hlong => ?_⟩
        exact (hends.trans_le (endsAt_le request)).trans hlong
    | stopped now =>
      refine ih hevents ?_
      intro w hw
      obtain ⟨hclosed, v, hv, hle⟩ := expiresAt_stop hw
      by_cases hnow : now ≤ t
      · exact .inl (hclosed.trans hnow)
      · rcases hwindows v hv with hover | ⟨later, hlater, hstop⟩
        · exact .inl (hle.trans hover)
        · rcases List.mem_cons.mp hstop with heq | hstop
          · cases heq
            exact absurd hlater hnow
          · exact .inr ⟨later, hlater, hstop⟩

theorem captures_lapse (u : Unicode) (s : Settings) (db db' : LatestFirst)
    {events : List CaptureEvent} {t : ℤ} (h : Lapsed s t events) :
    effectiveLevel u s (activeWindow db' (captured u s db events) t) = s.baselineLevel u := by
  rw [captured, activeWindow_none.mpr (over_of_lapsed h (by simp))]
  rfl

/-- The `DEBUG` window captures everything, and nothing extra from the moment it is stopped. -/
theorem debug_window_lapses :
    effectiveLevel .ascii {} (activeWindow .oldest
      (captured .ascii {} .oldest [.opened 60000000 debugRequest]) 119000000) = 10 ∧
    effectiveLevel .ascii {} (activeWindow .oldest
      (captured .ascii {} .oldest [.opened 60000000 debugRequest, .stopped 120000000])
        120000000) = ({} : Settings).baselineLevel .ascii :=
  ⟨by decide +kernel, captures_lapse .ascii {} .oldest .oldest
    ⟨.inr ⟨120000000, le_rfl, .head _⟩, trivial⟩⟩

end CwStation.Telemetry
