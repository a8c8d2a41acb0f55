import CwStation.Library.Median
import CwStation.Model.Python

/-! # Band surveys: `bandscan.py`

Calls of `start` and the workers they launch, as threads over one shared `_state`. A thread
moves from one critical section, sweep or call of `on_finish` to the next. -/

namespace CwStation.Bandscan

/-- What `start` reads of a `Band`. -/
structure Band where
  key : Str
  label : Str
  deriving DecidableEq

/-- `BANDS`. -/
def bands : List Band := [
  ⟨"80m".toList, "80 m ham".toList⟩, ⟨"40m_cw".toList, "40 m CW".toList⟩,
  ⟨"20m_cw".toList, "20 m CW".toList⟩, ⟨"wwv".toList, "WWV 10 MHz".toList⟩,
  ⟨"12m".toList, "12 m ham".toList⟩, ⟨"cb".toList, "CB / 11 m".toList⟩,
  ⟨"10m_cw".toList, "10 m CW".toList⟩, ⟨"10m_beacon".toList, "10 m beacons".toList⟩,
  ⟨"10m_ssb".toList, "10 m SSB".toList⟩, ⟨"6m".toList, "6 m ham".toList⟩,
  ⟨"fm".toList, "FM broadcast".toList⟩, ⟨"air".toList, "Airband".toList⟩,
  ⟨"2m".toList, "2 m ham".toList⟩, ⟨"noaa".toList, "NOAA weather".toList⟩,
  ⟨"uhf_tv".toList, "UHF TV".toList⟩]

/-- The requested bands that are known, in the order of the request. -/
def knownBands (keys : List Str) : List Band :=
  keys.filterMap fun k => bands.find? fun b => b.key = k

/-! ## The shared state -/

/-- A scored sweep; `summarize` puts the band into its result. -/
structure BandResult (S : Type) where
  band : Band
  score : S
  deriving DecidableEq

/-- `_state`, without the gain and the device it repeats. -/
structure Status (S : Type) where
  running : Bool := false
  done : ℕ := 0
  total : ℕ := 0
  current : Str := []
  results : List (BandResult S) := []
  error : String := ""
  antenna : Str := []
  surveyId : Option ℕ := none
  saving : Bool := false
  deriving DecidableEq

/-- The arguments of a call of `start` that has passed its checks. -/
structure Request where
  antenna : Str
  bands : List Band
  saves : Bool
  deriving DecidableEq

/-- The checks of `start` before its critical section. `running` is what
`radiodaemon.status()` says, `hasDevice` whether `list_devices()` names one. -/
def checkRequest (running hasDevice : Bool) (antenna : Str) (keys : List Str) (saves : Bool) :
    Except PyExc Request :=
  let antenna := strip antenna
  if saves ∧ antenna = [] then
    .error (.radio "Name the antenna so saved runs can be told apart.")
  else if knownBands keys = [] then .error (.radio "Pick at least one band to sweep.")
  else if running then
    .error (.radio ("The receiver is playing — press Stop on the FM Radio page first " ++
      "(the SDR can only do one thing at a time)."))
  else if !hasDevice then .error (.radio "No SDR detected — plug a dongle in and try again.")
  else .ok ⟨antenna, knownBands keys, saves⟩

/-! ## Sweeps -/

/-- What one `rtl_power` pass does. `failed` is any other `Exception`, `aborted` any other
`BaseException`. -/
inductive Sweep (S : Type)
  | scored (score : S)
  | missing
  | timedOut
  | cannotRun (msg : String)
  | noOutput (msg : String)
  | failed (msg : String)
  | aborted (msg : String)
  deriving DecidableEq

variable {S : Type}

/-- `sweep_band`. -/
def sweepBand (band : Band) : Sweep S → Except PyExc (BandResult S)
  | .scored score => .ok ⟨band, score⟩
  | .missing =>
      .error (.radio "Scanning needs rtl_power from the rtl-sdr tools (brew install librtlsdr).")
  | .timedOut => .error (.radio (String.ofList band.label ++ ": sweep timed out"))
  | .cannotRun msg =>
      .error (.radio (String.ofList band.label ++ ": couldn't run rtl_power (" ++ msg ++ ")"))
  | .noOutput msg =>
      .error (.radio (String.ofList band.label ++ ": no sweep output (" ++ msg ++ ")"))
  | .failed msg => .error ⟨.other, msg⟩
  | .aborted msg => .error ⟨.base, msg⟩

/-! ## The worker -/

/-- Where the thread of an accepted call stands. -/
inductive Phase
  /-- `_state` is claimed, the thread is about to be started. -/
  | launching
  /-- At the head of the loop. -/
  | atBand (rest : List Band)
  /-- In `sweep_band`. -/
  | sweeping (band : Band) (rest : List Band)
  /-- The result is appended and about to be published. -/
  | publishing (rest : List Band)
  /-- In an `except` clause. -/
  | failing (msg : String)
  /-- At the `finally` block. -/
  | closing
  /-- In `on_finish`. -/
  | saving
  | saveFailed (msg : String)
  /-- About to make the final update. -/
  | ending (surveyId : Option ℕ)
  | ended
  /-- The thread did not start, or `on_finish` ended it. -/
  | lost
  deriving DecidableEq

/-- The worker is in a sweep. -/
def Phase.inSweep : Phase → Bool
  | .sweeping _ _ => true
  | _ => false

/-- The worker is in a sweep or may still begin one. -/
def Phase.sweepsLeft : Phase → Bool
  | .launching | .sweeping _ _ => true
  | .atBand rest | .publishing rest => !rest.isEmpty
  | _ => false

/-- An accepted call: its worker, and what has happened to it. -/
structure Run (S : Type) where
  request : Request
  phase : Phase := .launching
  results : List (BandResult S) := []
  /-- The results handed to `on_finish`, call by call. -/
  finishCalls : List (List (BandResult S)) := []
  /-- What `on_finish` returned, if it did. -/
  returned : Option (Option ℕ) := none
  /-- Some sweep raised. -/
  raised : Bool := false
  deriving DecidableEq

/-- What the surroundings decide when a worker moves on. -/
inductive Outcome (S : Type)
  | go
  | launched (ok : Bool)
  | swept (sweep : Sweep S)
  | saved (result : Except PyExc (Option ℕ))

namespace Run

def caught (e : PyExc) : Phase :=
  match e.cls with
  | .radioError => .failing e.msg
  | .base => .closing
  | _ => .failing ("Sweep failed: " ++ e.msg)

def endSweep (run : Run S) (rest : List Band) : Except PyExc (BandResult S) → Run S
  | .ok result => { run with results := run.results ++ [result], phase := .publishing rest }
  | .error e => { run with raised := true, phase := caught e }

def endSave (run : Run S) : Except PyExc (Option ℕ) → Run S
  | .ok id => { run with returned := some id, phase := .ending id }
  | .error e =>
      if e.cls = .base then { run with phase := .lost }
      else { run with phase := .saveFailed ("Scanned, but couldn't save: " ++ e.msg) }

/-- The condition of the `finally` block: `_state["error"]` is read without the lock. -/
def wantsSave (run : Run S) (status : Status S) : Bool :=
  run.request.saves && !run.results.isEmpty && status.error == ""

/-- The next step of a worker, if the outcome is one it can take. -/
def advance (status : Status S) (run : Run S) : Outcome S → Option (Status S × Run S)
  | .go =>
      match run.phase with
      | .atBand [] => some (status, { run with phase := .closing })
      | .atBand (band :: rest) =>
          some ({ status with current := band.label }, { run with phase := .sweeping band rest })
      | .publishing rest =>
          some ({ status with done := run.results.length, results := run.results },
            { run with phase := .atBand rest })
      | .failing msg => some ({ status with error := msg }, { run with phase := .closing })
      | .closing =>
          if run.wantsSave status then
            some (status, { run with
              phase := .saving, finishCalls := run.finishCalls ++ [run.results] })
          else some (status, { run with phase := .ending none })
      | .saveFailed msg =>
          some ({ status with error := msg }, { run with phase := .ending none })
      | .ending id =>
          some ({ status with running := false, current := [], surveyId := id },
            { run with phase := .ended })
      | _ => none
  | .launched ok =>
      if run.phase = .launching then
        some (status, { run with phase := if ok then .atBand run.request.bands else .lost })
      else none
  | .swept sweep =>
      match run.phase with
      | .sweeping band rest => some (status, run.endSweep rest (sweepBand band sweep))
      | _ => none
  | .saved result => if run.phase = .saving then some (status, run.endSave result) else none

end Run

/-! ## All threads -/

/-- The shared state, the calls of `start` between their checks and their critical section,
and the accepted calls, the latest last. -/
structure Survey (S : Type) where
  status : Status S := {}
  pending : List Request := []
  runs : List (Run S) := []
  deriving DecidableEq

inductive Label (S : Type)
  | check (hasDevice : Bool) (antenna : Str) (keys : List Str) (saves : Bool)
  | accept (k : ℕ)
  | worker (i : ℕ) (outcome : Outcome S)

namespace Survey

/-- The update of the critical section of `start`. -/
def claim (request : Request) : Status S where
  running := true
  done := 0
  total := request.bands.length
  current := (request.bands.head?.map Band.label).getD []
  results := []
  error := ""
  antenna := request.antenna
  surveyId := none
  saving := request.saves

/-- The critical section of `start`: a call is refused while a survey runs. -/
def enter (s : Survey S) (k : ℕ) : Survey S :=
  match s.pending[k]? with
  | none => s
  | some request =>
      if s.status.running then { s with pending := s.pending.eraseIdx k }
      else {
        status := claim request
        pending := s.pending.eraseIdx k
        runs := s.runs ++ [{ request }] }

def work (s : Survey S) (i : ℕ) (outcome : Outcome S) : Survey S :=
  match s.runs[i]? with
  | none => s
  | some run =>
      match run.advance s.status outcome with
      | none => s
      | some (status, run) => { s with status, runs := s.runs.set i run }

/-- One step of some thread; `receiver` is whether `radiodaemon` says that it is running. -/
def step (receiver : Bool) (s : Survey S) : Label S → Survey S
  | .check hasDevice antenna keys saves =>
      match checkRequest receiver hasDevice antenna keys saves with
      | .ok request => { s with pending := s.pending ++ [request] }
      | .error _ => s
  | .accept k => s.enter k
  | .worker i outcome => s.work i outcome

/-- Some band is being swept. -/
def sweeping (s : Survey S) : Bool := s.runs.any fun run => run.phase.inSweep

/-- No call of `start` is past its checks, and no worker will sweep any more. -/
def quiet (s : Survey S) : Bool :=
  s.pending.isEmpty && s.runs.all fun run => !run.phase.sweepsLeft

end Survey

end CwStation.Bandscan

/-! ## The score of a swept band: `bandscan.py` -/

namespace CwStation.Scoring

open PyFloat (lit)

/-- What `Band.as_dict` lists. -/
structure BandInfo (F : Type) where
  key : Str
  label : Str
  lowMhz : F
  highMhz : F
  stepKhz : F
  reference : Bool := false
  note : Str := []
  hf : Bool := false
  dwellS : ℕ := 2
  deriving DecidableEq

structure Band (F : Type) extends BandInfo F where
  floorPct : ℕ := 50
  deriving DecidableEq

/-- What `summarize` returns. -/
structure Summary (F : Type) where
  band : BandInfo F
  floorDb : Option F
  peakDb : Option F
  snrDb : Option F
  peakMhz : Option F
  signals : ℕ
  bins : ℕ
  deriving DecidableEq

variable {F : Type} [PyFloat F]

/-- `SIGNAL_THRESHOLD_DB`. -/
def signalThresholdDb : F := lit 6

/-- `_floor_db`. -/
def floorDb (dbs : List F) (pct : ℕ) : F :=
  if pct = 50 then Median.median (fun a b => (a + b) / lit 2) PyFloat.nan dbs
  else
    let ordered := dbs.insertionSort (· ≤ ·)
    ordered.getD (min (ordered.length - 1) (ordered.length * pct / 100)) PyFloat.nan

/-- `max(bins, key=lambda pair: pair[1])`: the first of the highest bins. -/
def highest : List (F × F) → F × F
  | [] => (PyFloat.nan, PyFloat.nan)
  | bin :: bins => bins.foldl (fun best bin => if best.2 < bin.2 then bin else best) bin

def summarize (band : Band F) (bins : List (F × F)) : Summary F :=
  if bins.length < 4 then
    { band := band.toBandInfo, floorDb := none, peakDb := none, snrDb := none, peakMhz := none
      signals := 0, bins := bins.length }
  else
    let dbs := bins.map Prod.snd
    let floor := floorDb dbs band.floorPct
    let peak := highest bins
    { band := band.toBandInfo
      floorDb := some (PyFloat.round floor 1)
      peakDb := some (PyFloat.round peak.2 1)
      snrDb := some (PyFloat.round (peak.2 - floor) 1)
      peakMhz := some (PyFloat.round peak.1 4)
      signals := dbs.countP fun db => signalThresholdDb ≤ db - floor
      bins := bins.length }

end CwStation.Scoring
