import CwStation.Library.Effects
import CwStation.Library.Median
import CwStation.Model.Bandscan
import Mathlib.Data.PNat.Basic

/-! # The FM receiver: `radiodaemon.py`

The receiver with the machine around it: the `rtl_fm` processes it has spawned, the pidfile,
and the module state. What the surroundings will do is a script. Between any two steps of an
operation processes may die and the threads of band surveys may go on. -/

namespace CwStation

open PyFloat (lit)

/-! ## Stations on a band -/

namespace Radio

/-- What is read of an entry of `RADIO_BANDS`. -/
structure RadioBand (F : Type) where
  low : F
  high : F
  step : F
  decimals : ℕ
  seekSeparationMhz : F
  seekEpsMhz : F

section stations

variable {F : Type} [PyFloat F]

/-- `RADIO_BANDS`. -/
def radioBands : List (RadioBand F) := [
  { low := lit 88, high := lit 108, step := lit (1 / 10), decimals := 1
    seekSeparationMhz := lit (1 / 4), seekEpsMhz := lit (3 / 20) },
  { low := lit 118, high := lit 137, step := lit (1 / 40), decimals := 3
    seekSeparationMhz := lit (1 / 50), seekEpsMhz := lit (1 / 50) }]

def bandFor (freqMhz : F) : Option (RadioBand F) :=
  radioBands.find? fun band => band.low ≤ freqMhz && freqMhz ≤ band.high

def tunableRanges : String := "88–108 MHz (FM) or 118–137 MHz (AIR)"

/-- What `float(freq_mhz)` does with an argument: `notFloat` is a `TypeError` or a
`ValueError`, with the `repr` of the argument. -/
inductive FreqArg (F : Type)
  | number (freq : F)
  | notFloat (repr : String)
  | fails (e : PyExc)

/-- `_validate_freq`; `g` is the format `:g`. -/
def validateFreq (g : F → String) : FreqArg F → Except PyExc F
  | .number freq =>
      if (bandFor freq).isSome then .ok freq
      else .error (.radio (g freq ++ " MHz is outside the tunable bands (" ++ tunableRanges ++ ")."))
  | .notFloat repr => .error (.radio ("Not a frequency: " ++ repr))
  | .fails e => .error e

/-- `SEEK_THRESHOLD_DB`. -/
def seekThresholdDb : F := lit 12

/-- `<` on pairs. -/
def pairLt (a b : F × F) : Bool := if a.1 == b.1 then a.2 < b.2 else a.1 < b.1

def sortPairs (l : List (F × F)) : List (F × F) := l.mergeSort fun a b => !pairLt b a

def sortPairsReverse (l : List (F × F)) : List (F × F) := l.mergeSort fun a b => !pairLt a b

/-- The interior local maxima that clear the threshold, with their height above the floor. -/
def candidates (thresholdDb floor : F) : List (F × F) → List (F × F)
  | before :: (mhz, db) :: after :: bins =>
      let rest := candidates thresholdDb floor ((mhz, db) :: after :: bins)
      if db - floor < thresholdDb then rest
      else if before.2 ≤ db && after.2 ≤ db then (db - floor, mhz) :: rest
      else rest
  | _ => []

/-- The greedy loop over the candidates, the strongest first. -/
def keepStations (band : RadioBand F) : List (F × F) → List (F × F) → Except PyExc (List (F × F))
  | kept, [] => .ok kept
  | kept, (snr, mhz) :: rest =>
      if kept.any fun k => PyFloat.abs (mhz - k.1) < band.seekSeparationMhz then
        keepStations band kept rest
      else do
        let channel ← PyFloat.roundInt (mhz / band.step)
        keepStations band
          (kept ++ [(PyFloat.round (lit channel * band.step) band.decimals, PyFloat.round snr 1)]) rest

def findStations (bins : List (F × F)) (band : RadioBand F) (thresholdDb : F) :
    Except PyExc (List (F × F)) := do
  if bins.length < 8 then return []
  let floor := Median.median (fun a b => (a + b) / lit 2) PyFloat.nan (bins.map Prod.snd)
  let kept ← keepStations band [] (sortPairsReverse (candidates thresholdDb floor bins))
  return sortPairs kept

/-- `min` or `max` of a list that is not empty. -/
def pick (better : F → F → F) : List F → Option F
  | [] => none
  | f :: fs => some (fs.foldl better f)

def nextStation (freqs : List F) (current : F) (direction : Str) (band : RadioBand F) : Option F :=
  let eps := band.seekEpsMhz
  let target :=
    if direction = "up".toList then
      (pick PyFloat.min (freqs.filter fun f => current + eps < f)).or (pick PyFloat.min freqs)
    else (pick PyFloat.max (freqs.filter fun f => f < current - eps)).or (pick PyFloat.max freqs)
  target.filter fun f => !(PyFloat.abs (f - current) ≤ eps)

end stations

/-! ## The receiver and its surroundings -/

/-- An `rtl_fm` spawned by the module, by its place in the order of spawning, with the
settings of its command line. -/
structure Child (F : Type) where
  id : ℕ
  pid : ℕ+
  freq : F
  device : ℕ
  gain : Option F
  directSampling : Bool
  deriving DecidableEq

/-- What `Popen` does. -/
inductive Spawn
  | failed (msg : String)
  | started (pid : ℕ+)

/-- What one `rtl_power` pass of a seek does; `output` has the bins of the band that are in
its output, and the last line of its error output. -/
inductive PowerRun (F : Type)
  | missing
  | timedOut
  | cannotRun (msg : String)
  | output (bins : List (F × F)) (tail : Option String)

/-- What happens besides the operation under way. -/
inductive Event (S : Type)
  | dies (id : ℕ)
  | survey (label : Bandscan.Label S)

/-- What can be seen at one moment. -/
structure Moment (F : Type) where
  live : List (Child F)
  proc : Option (Child F)
  pidfile : Option ℤ
  sweeping : Bool

end Radio

open Radio

/-- The machine, `_state`, the surveys, the script, and what has been seen so far. -/
structure Radio (F S : Type) where
  live : List (Child F) := []
  spawned : ℕ := 0
  pidfile : Option ℤ := none
  proc : Option (Child F) := none
  freqMhz : Option F := none
  survey : Bandscan.Survey S := {}
  /-- What happens before each further step. -/
  events : List (List (Event S)) := []
  /-- Whether `which("rtl_fm")` finds it. -/
  tools : List Bool := []
  spawns : List Spawn := []
  /-- Why the two threads of a receiver cannot be started, if so. -/
  threads : List (Option String) := []
  /-- The last log lines of a receiver that has exited. -/
  tails : List String := []
  /-- Why the sink does not open in time; `""` if nothing says why. -/
  sinks : List (Option String) := []
  unlinks : List Bool := []
  sweeps : List (PowerRun F) := []
  history : List (Moment F) := []
  /-- No receiver has been spawned while a survey was under way. -/
  apart : Bool := true

namespace Radio

variable {F S : Type}

def moment (r : Radio F S) : Moment F where
  live := r.live
  proc := r.proc
  pidfile := r.pidfile
  sweeping := r.survey.sweeping

def record (r : Radio F S) : Radio F S := { r with history := r.history ++ [r.moment] }

/-- `proc.poll() is None`. -/
def alive (child : Child F) (r : Radio F S) : Bool := r.live.any fun c => c.id = child.id

/-- `_state["proc"] is not None and _state["proc"].poll() is None`. -/
def running (r : Radio F S) : Bool := r.proc.any fun child => r.alive child

/-- `ps` says that the process is `rtl_fm`. -/
def isRtlFm (pid : ℤ) (r : Radio F S) : Bool := r.live.any fun c => (c.pid : ℤ) = pid

/-- The process is the one that `_state` supervises. -/
def supervises (pid : ℤ) (r : Radio F S) : Bool :=
  r.running && r.proc.any fun child => (child.pid : ℤ) = pid

def removeChild (id : ℕ) (r : Radio F S) : Radio F S :=
  { r with live := r.live.filter fun c => c.id ≠ id }

def happen (r : Radio F S) : Event S → Radio F S
  | .dies id => (r.removeChild id).record
  | .survey label => record { r with survey := r.survey.step r.running label }

/-- What happens before the next step. -/
def pass (r : Radio F S) : Radio F S :=
  (r.events.headD []).foldl happen { r with events := r.events.tail }

/-! ## Steps -/

abbrev Rx (F S : Type) := EStateM PyExc (Radio F S)

def observe {α : Type} (f : Radio F S → α) : Rx F S α := fun r => .ok (f r.pass) r.pass

def change (f : Radio F S → Radio F S) : Rx F S Unit := fun r => .ok () (f r.pass).record

def raiseIn {α : Type} : Except PyExc α → Rx F S α
  | .ok a => pure a
  | .error e => throw e

def whichRtlFm : Rx F S Bool := fun r =>
  .ok (r.pass.tools.headD true) { r.pass with tools := r.pass.tools.tail }

/-- `Popen`, and the assignment of `_state["proc"]` and `_state["freq_mhz"]`. -/
def popen (freq : F) (device : ℕ) (gain : Option F) (directSampling : Bool) : Rx F S (Child F) :=
  fun r =>
    let r := r.pass
    let spawns := r.spawns.tail
    match r.spawns.headD (.failed "no such file") with
    | .failed msg => .error (.radio ("Couldn't start rtl_fm: " ++ msg)) { r with spawns }
    | .started pid =>
        let child : Child F := { id := r.spawned, pid, freq, device, gain, directSampling }
        .ok child (record { r with
          spawns
          live := r.live ++ [child]
          spawned := r.spawned + 1
          proc := some child
          freqMhz := some freq
          apart := r.apart && r.survey.quiet })

def startThreads : Rx F S Unit := fun r =>
  let r := r.pass
  match r.threads.headD none with
  | none => .ok () { r with threads := r.threads.tail }
  | some msg => .error ⟨.other, msg⟩ { r with threads := r.threads.tail }

def logTail : Rx F S String := fun r =>
  .ok (r.pass.tails.headD "") { r.pass with tails := r.pass.tails.tail }

/-- `_sink_open.wait(2.0)`. -/
def awaitSink : Rx F S (Option String) := fun r =>
  .ok (r.pass.sinks.headD none) { r.pass with sinks := r.pass.sinks.tail }

def rtlPower : Rx F S (PowerRun F) := fun r =>
  .ok (r.pass.sweeps.headD .missing) { r.pass with sweeps := r.pass.sweeps.tail }

/-! ## Orphans -/

/-- `_PIDFILE.unlink()`, which may fail. -/
def unlinkPidfile : Rx F S Unit :=
  change fun r => { r with
    pidfile := if r.unlinks.headD true then none else r.pidfile
    unlinks := r.unlinks.tail }

/-- The loop behind the SIGTERM, with the SIGKILL at its end. -/
def awaitExit (pid : ℤ) : ℕ → Rx F S Unit
  | 0 => change fun r => { r with live := r.live.filter fun c => (c.pid : ℤ) ≠ pid }
  | n + 1 => do
      if ← observe (isRtlFm pid) then awaitExit pid n

/-- The signals to a process that is no longer supervised. -/
def killStale (pid : ℤ) : Rx F S Unit := do
  if 0 < pid then
    if ← observe (isRtlFm pid) then awaitExit pid 20

def reapStale : Rx F S Unit := do
  match ← observe Radio.pidfile with
  | none => pure ()
  | some pid =>
      if ← observe (supervises pid) then pure ()
      else
        killStale pid
        unlinkPidfile

/-! ## Life cycle -/

def clearState : Rx F S Unit := change fun r => { r with proc := none, freqMhz := none }

def killProc : Rx F S Unit :=
  change fun r => match r.proc with
    | none => r
    | some child => r.removeChild child.id

/-- SIGTERM has no effect that could be seen before the process dies; `wait` times out if it
has not by then. -/
def stopLocked : Rx F S Unit := do
  if ← observe running then
    if ← observe running then killProc
  clearState
  reapStale

/-- `s in t`. -/
def contains (s t : String) : Bool := t.toList.tails.any fun u => s.toList.isPrefixOf u

def exitMessage (tail : String) : String :=
  if contains "usb_claim_interface" tail ∨ contains "device is busy" tail.toLower then
    "The SDR is in use by another program (gqrx? another tab?). Close it and try again."
  else "rtl_fm exited immediately — " ++ if tail = "" then "no output" else tail

section operations

variable [PyFloat F] (g : F → String)

/-- What follows `Popen` in `_start_locked`. -/
def settle (freq : F) (child : Child F) : Rx F S Unit := do
  change fun r => { r with pidfile := some child.pid }
  startThreads
  unless ← observe (alive child) do
    let tail ← logTail
    clearState
    throw (.radio (exitMessage tail))
  match ← awaitSink with
  | none => pure ()
  | some error =>
      stopLocked
      throw (.radio ("Tuned " ++ g freq ++ " MHz, but there's no audio out — " ++
        if error = "" then "the audio device wouldn't open" else error))

/-- `_start_locked`; `device` is what `int(device_index)` does. -/
def startLocked (freq : F) (device : Except PyExc ℤ) (gain : Option F) (directSampling : Bool) :
    Rx F S Unit := do
  let device ← raiseIn device
  if device < 0 then throw (.radio ("Not a device index: " ++ toString device))
  unless ← whichRtlFm do
    throw (.radio "The rtl-sdr tools aren't installed (brew install librtlsdr).")
  reapStale
  if ← observe running then throw (.radio "The receiver is already running — stop it first.")
  let child ← popen freq device.toNat gain directSampling
  settle g freq child

def start (freqMhz : FreqArg F) (device : Except PyExc ℤ) (gain : Option F) (directSampling : Bool) :
    Rx F S Unit := do
  let freq ← raiseIn (validateFreq g freqMhz)
  startLocked g freq device gain directSampling

def stop : Rx F S Unit := stopLocked

def retune (freqMhz : FreqArg F) (device : Except PyExc ℤ) (gain : Option F) (directSampling : Bool) :
    Rx F S Unit := do
  let freq ← raiseIn (validateFreq g freqMhz)
  stopLocked
  startLocked g freq device gain directSampling

/-- `_run_sweep`. -/
def runSweep (device : Except PyExc ℤ) : PowerRun F → Except PyExc (List (F × F))
  | .missing => .error (.radio "Seeking needs rtl_power from the rtl-sdr tools (brew install librtlsdr).")
  | .timedOut => do
      let _ ← device
      .error (.radio "The band sweep timed out.")
  | .cannotRun msg => do
      let _ ← device
      .error (.radio ("Couldn't run rtl_power: " ++ msg))
  | .output bins tail => do
      let _ ← device
      if bins = [] then
        .error (.radio ("The band sweep produced nothing — " ++ tail.getD "no output"))
      else .ok bins

/-- What a seek makes of the sweep: the stations and the next of them. -/
def chooseStation (device : Except PyExc ℤ) (direction : Str) (current : F) (band : RadioBand F)
    (power : PowerRun F) : Except PyExc (Option F) := do
  let bins ← runSweep device power
  let stations ← findStations bins band seekThresholdDb
  return nextStation (stations.map Prod.fst) current direction band

/-- A seek up to the new station. -/
def findNext (direction : Str) (fromMhz : FreqArg F) (device : Except PyExc ℤ) : Rx F S F := do
  unless direction = "up".toList ∨ direction = "down".toList do
    throw (.radio "direction must be 'up' or 'down'")
  let current ← raiseIn (validateFreq g fromMhz)
  match bandFor current with
  | none => throw (.radio (g current ++ " MHz is not in a tunable band."))
  | some band =>
      let wasPlaying ← observe fun r => if r.running then r.freqMhz else none
      stopLocked
      let power ← rtlPower
      match ← raiseIn (chooseStation device direction current band power) with
      | some target => pure target
      | none =>
          match wasPlaying with
          | some freq => startLocked g freq device none false
          | none => pure ()
          throw (.radio "No strong station found — nothing above the noise.")

def seek (direction : Str) (fromMhz : FreqArg F) (device : Except PyExc ℤ) : Rx F S Unit := do
  let target ← findNext g direction fromMhz device
  startLocked g target device none false

/-! ## Runs -/

/-- A new server process: the module state and the threads of the surveys are gone. -/
def restart : Rx F S Unit :=
  change fun r => { r with proc := none, freqMhz := none, survey := {} }

/-- The operations, which `_op_lock` puts in an order, and restarts between them. -/
inductive Op (F : Type)
  | start (freqMhz : FreqArg F) (device : Except PyExc ℤ) (gain : Option F) (directSampling : Bool)
  | stop
  | retune (freqMhz : FreqArg F) (device : Except PyExc ℤ) (gain : Option F) (directSampling : Bool)
  | seek (direction : Str) (fromMhz : FreqArg F) (device : Except PyExc ℤ)
  | restart

def perform : Op F → Rx F S Unit
  | .start freqMhz device gain directSampling => start g freqMhz device gain directSampling
  | .stop => stop
  | .retune freqMhz device gain directSampling => retune g freqMhz device gain directSampling
  | .seek direction fromMhz device => seek g direction fromMhz device
  | .restart => restart

/-- The state behind a sequence of operations, whether each returns or raises. -/
def after (ops : List (Op F)) (r : Radio F S) : Radio F S :=
  ops.foldl (fun r op => Effects.endState (perform g op) r) r

end operations

end Radio

end CwStation
