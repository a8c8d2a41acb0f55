import CwStation.Model.Decoder

/-! # The audio-engine seam and the live monitor: `engine/manager.py`, `engine/live.py` -/

namespace CwStation

open Emit (emitAll)
open PyFloat (lit)

/-- `AudioDemodulator`: decodes raw samples `S` into events `E`. -/
structure AudioDemodulator (D S E : Type) where
  process : D → List S → Except PyExc (List E × D)
  flush : D → Except PyExc (List E × D)

/-- `NetworkTapEngine`: polls an external decoder. -/
structure NetworkTapEngine (T E : Type) where
  poll : T → Except PyExc (List E × T)

/-- `AudioEngineManager`. A subscriber is the list of events it has been called with. -/
structure AudioEngineManager (D T E : Type) where
  demods : List D
  taps : List T
  subs : List (List E)

namespace AudioEngineManager

variable {D T E S : Type}

def emit (events : List E) (m : AudioEngineManager D T E) : AudioEngineManager D T E :=
  { m with subs := m.subs.map (· ++ events) }

/-- Call one method of every engine in turn, and emit what each call returns. -/
def fanOut {X : Type} (call : X → Except PyExc (List E × X)) :
    List X → Except PyExc (List E × List X)
  | [] => .ok ([], [])
  | x :: xs => do
      let (out, x) ← call x
      let (rest, xs) ← fanOut call xs
      .ok (out ++ rest, x :: xs)

def pollTaps (tap : NetworkTapEngine T E) (m : AudioEngineManager D T E) :
    Except PyExc (AudioEngineManager D T E) := do
  let (out, taps) ← fanOut tap.poll m.taps
  .ok (emit out { m with taps })

def pump (eng : AudioDemodulator D S E) (tap : NetworkTapEngine T E)
    (m : AudioEngineManager D T E) (samples : List S) :
    Except PyExc (AudioEngineManager D T E) := do
  let (out, demods) ← fanOut (eng.process · samples) m.demods
  pollTaps tap (emit out { m with demods })

def finalize (eng : AudioDemodulator D S E) (tap : NetworkTapEngine T E)
    (m : AudioEngineManager D T E) : Except PyExc (AudioEngineManager D T E) := do
  let (out, demods) ← fanOut eng.flush m.demods
  pollTaps tap (emit out { m with demods })

/-- The loop of `run_source` over the blocks of a source. -/
def pumpAll (eng : AudioDemodulator D S E) (tap : NetworkTapEngine T E) :
    AudioEngineManager D T E → List (List S) → Except PyExc (AudioEngineManager D T E)
  | m, [] => .ok m
  | m, blk :: rest => do
      let m ← pump eng tap m blk
      pumpAll eng tap m rest

def runSource (eng : AudioDemodulator D S E) (tap : NetworkTapEngine T E)
    (m : AudioEngineManager D T E) (blocks : List (List S)) :
    Except PyExc (AudioEngineManager D T E) := do
  let m ← pumpAll eng tap m blocks
  finalize eng tap m

end AudioEngineManager

/-- The base class of the taps polls nothing. -/
def NetworkTapEngine.idle {T E : Type} : NetworkTapEngine T E := ⟨fun t => .ok ([], t)⟩

/-- The CW decoder as a demodulator of the manager. -/
def CWDecoder.demodulator {F S : Type} [PyFloat F] (dsp : Dsp F S) :
    AudioDemodulator (CWDecoder F S) S (CharEvent F) where
  process := CWDecoder.process dsp
  flush := CWDecoder.flush

/-! ## `monitor_live` -/

/-- The calibration loop: blocks are buffered until `target` samples are there. The
second list is what the source still has to yield. -/
def calibrate {S : Type} (target : ℤ) : ℕ → List (List S) → List (List S) × List (List S)
  | _, [] => ([], [])
  | have', blk :: rest =>
      let have' := have' + blk.length
      if target ≤ have' then ([blk], rest)
      else
        let (buffered, left) := calibrate target have' rest
        (blk :: buffered, left)

/-- What a call of `monitor_live` leaves behind: its result, what `on_char` was called
with, and the note given to `on_tone`. -/
structure LiveRun (F : Type) where
  result : DecodeResult F
  heard : List (CharEvent F)
  tone : F

/-- The note the decoder is tuned to, the blocks buffered to find it, and the rest. -/
def settleTone {F S : Type} [PyFloat F] (dsp : Dsp F S) (fs : ℕ) (blocks : List (List S))
    (toneHz : Option F) (calibrateS : F) : Except PyExc (F × List (List S) × List (List S)) :=
  match toneHz with
  | some tone => .ok (tone, [], blocks)
  | none => do
      let target ← PyFloat.trunc (calibrateS * lit fs)
      let (buffered, rest) := calibrate target 0 blocks
      .ok (if buffered = [] then lit 600 else dsp.detectTone buffered.flatten fs, buffered, rest)

/-- `monitor_live(source, tone_hz, calibrate_s, expected_wpm, on_char, config=config)`
over the blocks a source yields before it ends. -/
def monitorLive {F S : Type} [PyFloat F] (dsp : Dsp F S) (fs : ℕ) (blocks : List (List S))
    (toneHz : Option F) (calibrateS : F) (expectedWpm : Option F) (config : CWConfig F) :
    Except PyExc (LiveRun F) := do
  let (tone, buffered, rest) ← settleTone dsp fs blocks toneHz calibrateS
  let decoder ← CWDecoder.init fs { config with toneHz := tone, expectedWpm }
  let eng := CWDecoder.demodulator dsp
  let tap : NetworkTapEngine Unit (CharEvent F) := .idle
  let mgr : AudioEngineManager (CWDecoder F S) Unit (CharEvent F) := ⟨[decoder], [], [[]]⟩
  let mgr ← mgr.pumpAll eng tap buffered
  let mgr ← mgr.pumpAll eng tap rest
  let mgr ← mgr.finalize eng tap
  let decoder := mgr.demods.headD decoder
  .ok { result := { decoder.result with toneHz := tone }, heard := mgr.subs.headD [], tone }

end CwStation
