import CwStation.Library.Inherited
import CwStation.Model.Python
import Mathlib.Data.List.MinMax

/-! # Capture windows: `capture.py` and the capture part of `queries.py` -/

namespace CwStation.Telemetry

/-! ## Levels -/

/-- `logging.DEBUG` and so on, as `LEVELS` of `queries.py` lists them. -/
def levels : List (Str × ℤ) := [
  ("DEBUG".toList, 10), ("INFO".toList, 20), ("WARNING".toList, 30), ("ERROR".toList, 40),
  ("CRITICAL".toList, 50)]

/-- `logging._nameToLevel`. -/
def nameToLevel : List (Str × ℤ) := levels ++ [
  ("FATAL".toList, 50), ("WARN".toList, 30), ("NOTSET".toList, 0)]

/-- `logging.WARNING`. -/
def warning : ℤ := 30

/-- `logging.getLevelName` of a number. -/
def levelName (n : ℤ) : Str :=
  ((((levels ++ [("NOTSET".toList, 0)]).find? fun level : Str × ℤ => level.2 == n).map Prod.fst).getD
    ("Level ".toList ++ (toString n).toList))

/-- A setting that names a level or numbers it. -/
inductive LevelSetting
  | number (n : ℤ)
  | name (s : Str)

/-- `_level_number`. -/
def levelNumber (u : Unicode) : LevelSetting → ℤ
  | .number n => n
  | .name s => (nameToLevel.lookup (u.upper s)).getD warning

/-- A logger's dotted name, its last part first. The root logger has no part. -/
abbrev Name := List String

/-- The settings `TELEMETRY_LOG_LEVEL`, `TELEMETRY_MAX_CAPTURE_MINUTES` and
`TELEMETRY_CAPTURE_LOGGERS`. -/
structure Settings where
  logLevel : LevelSetting := .name "WARNING".toList
  maxCaptureMinutes : ℤ := 120
  captureLoggers : List Name := [["apps"], ["smallstack"], ["request", "django"]]

def Settings.baselineLevel (s : Settings) (u : Unicode) : ℤ := levelNumber u s.logLevel

/-! ## Windows -/

/-- A `LogCaptureWindow`. -/
structure LogCaptureWindow where
  level : Str
  expiresAt : ℤ
  startedAt : ℤ
  startedBy : Str := []
  note : Str := []
  deriving DecidableEq

/-- `order_by("-expires_at").first()`: a row that expires last. Which one of several is up
to the database. -/
structure LatestFirst where
  first : List LogCaptureWindow → Option LogCaptureWindow
  first_none : ∀ ws, first ws = none ↔ ws = []
  first_mem : ∀ ws w, first ws = some w → w ∈ ws
  first_latest : ∀ ws w, first ws = some w → ∀ v ∈ ws, v.expiresAt ≤ w.expiresAt

/-- A database that answers with the oldest of them. -/
def LatestFirst.oldest : LatestFirst where
  first ws := ws.find? fun w => ws.all fun v => v.expiresAt ≤ w.expiresAt
  first_none ws := by
    constructor
    · intro hnone
      rw [List.find?_eq_none] at hnone
      rw [← List.argmax_eq_none (f := LogCaptureWindow.expiresAt)]
      by_contra hlast
      obtain ⟨w, hw⟩ := Option.ne_none_iff_exists'.mp hlast
      refine hnone w (List.argmax_mem hw) (List.all_eq_true.mpr ?_)
      intro v hv
      exact decide_eq_true (List.le_of_mem_argmax hv hw)
    · rintro rfl
      rfl
  first_mem _ _ h := List.mem_of_find?_eq_some h
  first_latest ws w h v hv := by
    have hall := List.find?_some h
    exact of_decide_eq_true (List.all_eq_true.mp hall v hv)

/-- `active_window`. -/
def activeWindow (db : LatestFirst) (windows : List LogCaptureWindow) (now : ℤ) :
    Option LogCaptureWindow :=
  db.first (windows.filter fun w => now < w.expiresAt)

/-- `effective_level`. -/
def effectiveLevel (u : Unicode) (s : Settings) : Option LogCaptureWindow → ℤ
  | none => s.baselineLevel u
  | some w => min (levelNumber u (.name w.level)) (s.baselineLevel u)

/-- `datetime.max`. Times are counted in microseconds. -/
def maxTime : ℤ := 253402300799999999

/-- `stop`, with the number of windows it closed. -/
def stop (windows : List LogCaptureWindow) (now : ℤ) : List LogCaptureWindow × ℕ :=
  (windows.map fun w => if now < w.expiresAt then { w with expiresAt := now } else w,
    (windows.filter fun w => now < w.expiresAt).length)

/-! ## Requests -/

/-- Why `int(value)` fails. -/
inductive IntError
  | rejected
  | overflow

/-- What the queries read of a value of a request: `str(value or "")`, whether it is `None` or
empty, `int(value)` and `repr(value)`. -/
structure Value where
  text : Str
  blank : Bool
  toInt : Except IntError ℤ
  repr : Str

/-- A string of a request. -/
def Value.ofText (u : Unicode) (repr : Str → Str) (s : Str) : Value where
  text := s
  blank := s = []
  toInt := match pyInt u s with
    | .ok n => .ok n
    | .error _ => .error .rejected
  repr := repr s

/-- An `int` of a request. -/
def Value.ofInt (n : ℤ) : Value where
  text := if n = 0 then [] else (toString n).toList
  blank := false
  toInt := .ok n
  repr := (toString n).toList

/-- What a request is refused with: a `TelemetryQueryError`, an `OverflowError` of a number or a
date, or the `ValueError` of a date there is not. -/
inductive QueryError
  | noNote
  | unknownLevel (level : Str)
  | nothingExtra (level : Str) (baseline : ℤ)
  | notInt (field repr : Str)
  | tooSmall (field : Str) (minimum parsed : ℤ)
  | tooLarge (field : Str) (maximum parsed : ℤ)
  | notTime (field repr : Str)
  | overflow
  | noSuchDate

/-- The text of the error. -/
def QueryError.message (repr : Str → Str) : QueryError → Str
  | .noNote =>
      "note is required — say why capture is being turned up; it is shown to ".toList ++
        "operators in the capture list".toList
  | .unknownLevel level =>
      "level must be one of ".toList ++
        List.intercalate ", ".toList (levels.map Prod.fst) ++ ", got ".toList ++ repr level
  | .nothingExtra level baseline =>
      "level ".toList ++ level ++
        " would capture nothing extra — the baseline already records ".toList ++
        levelName baseline ++ " and above; choose a lower level".toList
  | .notInt field repr => field ++ " must be an integer, got ".toList ++ repr
  | .tooSmall field minimum parsed =>
      field ++ " must be >= ".toList ++ (toString minimum).toList ++ ", got ".toList ++
        (toString parsed).toList
  | .tooLarge field maximum parsed =>
      field ++ " must be <= ".toList ++ (toString maximum).toList ++ ", got ".toList ++
        (toString parsed).toList
  | .notTime field repr =>
      field ++ " must be an ISO-8601 datetime (e.g. 2026-08-17T01:30:00Z), got ".toList ++ repr
  | .overflow => "date value out of range".toList
  | .noSuchDate => "day is out of range for month".toList

/-- `parse_level`. -/
def parseLevel (u : Unicode) (value : Value) : Except QueryError Str :=
  let level := u.upper (strip value.text)
  if level = [] then .ok []
  else if (levels.lookup level).isSome then .ok level
  else .error (.unknownLevel level)

/-- The level a request for a window asks for: `parse_level(value) or "DEBUG"`. -/
def requestedLevel (level : Str) : Str := if level = [] then "DEBUG".toList else level

/-- `parse_capture_level`. -/
def parseCaptureLevel (u : Unicode) (s : Settings) (value : Value) : Except QueryError Str := do
  let level := requestedLevel (← parseLevel u value)
  let baseline := s.baselineLevel u
  if baseline ≤ (levels.lookup level).getD 0 then .error (.nothingExtra level baseline)
  else .ok level

/-- `parse_int`. -/
def parseInt (value : Value) (field : Str) (minimum : ℤ) (maximum : Option ℤ) :
    Except QueryError ℤ :=
  match value.toInt with
  | .error .rejected => .error (.notInt field value.repr)
  | .error .overflow => .error .overflow
  | .ok parsed =>
      if parsed < minimum then .error (.tooSmall field minimum parsed)
      else match maximum with
        | none => .ok parsed
        | some bound =>
            if bound < parsed then .error (.tooLarge field bound parsed) else .ok parsed

/-- `start`: the window it creates. -/
def start (u : Unicode) (s : Settings) (now : ℤ) (level : Str) (minutes : ℤ)
    (actor note : Str) : Except QueryError LogCaptureWindow :=
  let expiresAt := now + max 1 (min minutes s.maxCaptureMinutes) * 60000000
  if maxTime < expiresAt then .error .overflow
  else .ok {
    level := u.upper level, expiresAt := expiresAt, startedAt := now
    startedBy := actor.take 150, note := note.take 200 }

/-- The arguments of `open_capture`; `actorName` is `actor_name or actor.get_username()`. -/
structure CaptureRequest where
  level : Value
  minutes : Value
  note : Value
  actorName : Str := []

/-- The answer of `capture_status`, without the statistics of the process that answers, and what
`open_capture` adds to it. -/
structure CaptureState where
  window : Option LogCaptureWindow
  baselineLevel : Str
  maxMinutes : ℤ
  requestedMinutes : ℤ
  clamped : Bool

/-- `open_capture` on a table of windows: the window it adds and its answer. -/
def openCapture (u : Unicode) (s : Settings) (db : LatestFirst) (now : ℤ)
    (windows : List LogCaptureWindow) (request : CaptureRequest) :
    Except QueryError (LogCaptureWindow × CaptureState) := do
  let text := strip request.note.text
  if text = [] then .error .noNote
  else
    let resolvedLevel ← parseCaptureLevel u s request.level
    let resolvedMinutes ←
      parseInt (if request.minutes.blank then Value.ofInt 15 else request.minutes)
        "minutes".toList 1 none
    let window ← start u s now resolvedLevel resolvedMinutes (request.actorName.take 150)
      (text.take 200)
    .ok (window, {
      window := activeWindow db (windows ++ [window]) now
      baselineLevel := levelName (s.baselineLevel u)
      maxMinutes := s.maxCaptureMinutes
      requestedMinutes := resolvedMinutes
      clamped := s.maxCaptureMinutes < resolvedMinutes })

/-! ## Logger levels: `apply_levels` and `restore_levels` of `capture.py` -/

/-- The `.level` of every logger, `0` for `NOTSET`. A logger nobody has asked for yet is
`NOTSET`. -/
abbrev Levels := Name → ℤ

/-- `logging.getLogger`, which knows the root logger by its name too. -/
def getLogger (name : Name) : Name := if name = ["root"] then [] else name

/-- `Logger.getEffectiveLevel`. -/
def Levels.getEffectiveLevel (levels : Levels) (logger : Name) : ℤ :=
  Inherited.effective levels logger

/-- `Logger.setLevel`. -/
def Levels.setLevel (levels : Levels) (logger : Name) (level : ℤ) : Levels :=
  Function.update levels logger level

/-- `PINNED_LOGGERS`. -/
def pinnedLoggers : List (Name × ℤ) := [(["backends", "db", "django"], warning)]

/-- The loggers of a process and `_saved_levels`, which is ordered as its entries came. -/
structure Process where
  levels : Levels
  savedLevels : List (Name × ℤ) := []

/-- `_saved_levels.setdefault(name, logger.level)` and `logger.setLevel(level)`. -/
def Process.change (p : Process) (name : Name) (level : ℤ) : Process where
  levels := p.levels.setLevel (getLogger name) level
  savedLevels :=
    if (p.savedLevels.lookup name).isSome then p.savedLevels
    else p.savedLevels ++ [(name, p.levels (getLogger name))]

/-- The first loop of `apply_levels`. -/
def Process.lower (level : ℤ) (p : Process) (name : Name) : Process :=
  if level < p.levels.getEffectiveLevel (getLogger name) then p.change name level else p

/-- The second loop of `apply_levels`. -/
def Process.pin (p : Process) (pinned : Name × ℤ) : Process :=
  if p.levels.getEffectiveLevel (getLogger pinned.1) < pinned.2 then p.change pinned.1 pinned.2
  else p

/-- `logging.getLogger(name).setLevel(original)`. -/
def putBack (saved : Name × ℤ) (levels : Levels) : Levels :=
  levels.setLevel (getLogger saved.1) saved.2

/-- `restore_levels`, which takes the last entry first. -/
def restoreLevels (p : Process) : Process where
  levels := p.savedLevels.foldr putBack p.levels

/-- `apply_levels`. -/
def applyLevels (u : Unicode) (s : Settings) (level : ℤ) (p : Process) : Process :=
  if s.baselineLevel u ≤ level then restoreLevels p
  else pinnedLoggers.foldl Process.pin (s.captureLoggers.foldl (Process.lower level) p)

end CwStation.Telemetry
