import CwStation.Library.Buffers
import CwStation.Library.Emit
import CwStation.Library.Median
import CwStation.Model.Morse

/-! # The streaming CW decoder: `engine/cw.py`

Times, magnitudes and speeds are floats `F`, samples are values `S`. A method that
mutates the decoder returns the mutated decoder, after the events it returns. -/

namespace CwStation

open Morse (ElementKind Code decodeSymbol unknownChar)
open PyFloat (lit isZero divide)
open Emit (emitAll)

/-- `CWConfig`, without `attack`, which no code reads. -/
structure CWConfig (F : Type) where
  toneHz : F
  blockMs : F
  expectedWpm : Option F
  minWpm : F
  maxWpm : F
  envSmooth : F
  peakRelease : F
  floorRise : F
  hysteresis : F
  debounceMs : F
  bootMarks : ℤ
  inputGain : F
  squelchDb : F
  afc : Bool
  afcIntervalS : F
  afcWindowS : F
  afcBand : F × F
  afcMinProminence : F
  afcMinShiftHz : F

/-- `CWConfig()`. -/
def CWConfig.defaults {F : Type} [PyFloat F] : CWConfig F where
  toneHz := lit 600
  blockMs := lit 4
  expectedWpm := none
  minWpm := lit 5
  maxWpm := lit 60
  envSmooth := lit (3 / 10)
  peakRelease := lit (3 / 1000)
  floorRise := lit (4 / 1000)
  hysteresis := lit (1 / 5)
  debounceMs := lit 3
  bootMarks := 8
  inputGain := lit 1
  squelchDb := lit 0
  afc := false
  afcIntervalS := lit (1 / 2)
  afcWindowS := lit 1
  afcBand := (lit 300, lit 1200)
  afcMinProminence := lit 6
  afcMinShiftHz := lit 15

/-- The numerical routines the decoder calls, as functions of what they read. -/
structure Dsp (F S : Type) where
  /-- One sample times `input_gain`. -/
  scale : S → F → S
  /-- `abs(tw @ blk).max() / block` for the twiddles of a sample rate and a tone. -/
  toneMag : ℕ → F → List S → F
  log10 : F → F
  /-- `detect_tone_peak(samples, sample_rate, lo_hz, hi_hz)`. -/
  detectTonePeak : List S → ℕ → F → F → F × F
  /-- `detect_tone(samples, sample_rate)`. -/
  detectTone : List S → ℕ → F

/-- A buffered key run during bootstrap: `(keyed, t_start_s, duration_s)`. -/
abbrev BootRun (F : Type) := Bool × F × F

/-- The decoder's state behind the tone magnitude: the stream clock, the envelope and
its trackers, the keyed state, and what has been decoded. -/
structure DecodeState (F : Type) where
  fs : ℕ
  cfg : CWConfig F
  tSamples : ℕ
  env : Option F
  peak : Option F
  floor : Option F
  state : Bool
  cand : Bool
  runStartS : F
  debounceN : ℕ
  candCount : ℕ
  dit : Option F
  bootRuns : List (BootRun F)
  bootMarks : List F
  cur : Code
  curStart : F
  wpm : F
  snr : F
  flushed : Bool
  result : DecodeResult F

/-- The whole decoder: with the sample remainder and the state of the tone search. -/
structure CWDecoder (F S : Type) extends DecodeState F where
  block : ℕ
  /-- The tone `_tw` was last built for. -/
  twTone : F
  carry : List S
  afcBuf : List S
  afcLastS : F

/-- The fields of a block `_step` decides on: smoothed envelope, thresholds, squelch. -/
structure Levels (F : Type) where
  e : F
  hi : F
  lo : F
  squelched : Bool

/-- What a method returns: the characters completed by the call, and the state after it. -/
abbrev Emitted (F D : Type) := List (CharEvent F) × D

namespace DecodeState

variable {F : Type} [PyFloat F]

/-- `self._dit` before any mark: `1.2 / expected_wpm` if a prior is given. -/
def initialDit (c : CWConfig F) : Option F :=
  c.expectedWpm.bind fun w => if isZero w then none else some (lit (6 / 5) / w)

/-- The stream time `self._t_samples / self.fs`. -/
def now (d : DecodeState F) : F := lit d.tSamples / lit d.fs

/-! ## Runs, elements, characters -/

/-- `self._wpm` after `_update_wpm`. -/
def currentWpm (d : DecodeState F) : F :=
  match d.dit with
  | none => d.wpm
  | some dit =>
      if isZero dit then d.wpm
      else PyFloat.min (PyFloat.max (lit (6 / 5) / dit) d.cfg.minWpm) d.cfg.maxWpm

def updateWpm (d : DecodeState F) : DecodeState F := { d with wpm := currentWpm d }

/-- The element a mark of length `dur` is taken for. -/
def elementKind (dit dur : F) : ElementKind := if dur < lit 2 * dit then .dit else .dah

/-- The dit estimate after a mark of length `dur`. -/
def adaptDit (dit dur : F) : F :=
  let target := match elementKind dit dur with
    | .dit => dur
    | .dah => dur / lit 3
  lit (4 / 5) * dit + lit (1 / 5) * target

def addElement (tStart dur : F) (d : DecodeState F) : Except PyExc (DecodeState F) :=
  match d.dit with
  | none => .error .assertion
  | some dit =>
      let kind := elementKind dit dur
      let d := updateWpm { d with dit := some (adaptDit dit dur) }
      .ok { d with
        curStart := if d.cur = [] then tStart else d.curStart
        cur := d.cur ++ [kind]
        result := { d.result with
          elements := d.result.elements ++
            [⟨kind, PyFloat.round tStart 4, PyFloat.round (dur * lit 1000) 2⟩] } }

/-- The first half of `_flush_char`: the pending symbol, if any, becomes a character. -/
def flushCur (tEnd : F) (d : DecodeState F) : List (CharEvent F) × DecodeState F :=
  if d.cur = [] then ([], d)
  else
    let ch := decodeSymbol d.cur
    let ev : CharEvent F := {
      char := ch, morse := d.cur
      tStart := PyFloat.round d.curStart 4, tEnd := PyFloat.round tEnd 4
      wpm := PyFloat.round d.wpm 1, snrDb := PyFloat.round d.snr 1
      confidence := if ch = unknownChar then lit (2 / 5) else lit 1 }
    ([ev], { d with
      cur := []
      result := { d.result with
        chars := d.result.chars ++ [ev]
        text := d.result.text ++ ch } })

/-- The second half: a word gap adds one blank, never at the start or after a blank. -/
def flushWord (tEnd : F) (d : DecodeState F) : List (CharEvent F) × DecodeState F :=
  if d.result.text = [] ∨ endsWithSpace d.result.text then ([], d)
  else
    let space : CharEvent F := {
      char := [' '], morse := []
      tStart := PyFloat.round tEnd 4, tEnd := PyFloat.round tEnd 4
      wpm := PyFloat.round d.wpm 1, snrDb := PyFloat.round d.snr 1
      confidence := lit 1 }
    ([space], { d with
      result := { d.result with
        text := d.result.text ++ [' ']
        chars := d.result.chars ++ [space] } })

def flushChar (tEnd : F) (word : Bool) (d : DecodeState F) :
    List (CharEvent F) × DecodeState F :=
  let (out, d) := flushCur tEnd d
  if word then
    let (space, d) := flushWord tEnd d
    (out ++ space, d)
  else (out, d)

def spaceLogic (dur tEnd : F) (d : DecodeState F) : Except PyExc (Emitted F (DecodeState F)) :=
  match d.dit with
  | none => .error .assertion
  | some dit =>
      if dur < lit 2 * dit then .ok ([], d)
      else if dur < lit 5 * dit then .ok (flushChar tEnd false d)
      else .ok (flushChar tEnd true d)

/-! ## Bootstrap -/

/-- The marks of `_boot_marks` near the shortest one. -/
def ditCluster (marks : List F) : List F :=
  let lo := marks.foldl PyFloat.min (marks.headD PyFloat.nan)
  marks.filter fun m => decide (m ≤ lit (8 / 5) * lo)

def estimateDit (marks : List F) : F :=
  Median.median (fun a b => (a + b) / lit 2) PyFloat.nan (ditCluster marks)

/-- One buffered run of `_replay_boot`. -/
def replayRun (d : DecodeState F) (run : BootRun F) : Except PyExc (Emitted F (DecodeState F)) :=
  match run with
  | (true, tStart, dur) => do
      let d ← addElement tStart dur d
      .ok ([], d)
  | (false, tStart, dur) => spaceLogic dur (tStart + dur) d

def replayBoot (d : DecodeState F) : Except PyExc (Emitted F (DecodeState F)) := do
  let (out, d) ← emitAll replayRun (updateWpm d) d.bootRuns
  .ok (out, { d with bootRuns := [], bootMarks := [] })

/-- The key run `_on_mark_end` records, whatever becomes of the mark. -/
def recordMark (tStart dur : F) (d : DecodeState F) : DecodeState F :=
  { d with
    result := { d.result with
      keyRuns := d.result.keyRuns ++
        [⟨true, PyFloat.round tStart 4, PyFloat.round (dur * lit 1000) 2⟩] } }

/-- A mark heard before the dit is known. -/
def bufferMark (tStart dur : F) (d : DecodeState F) : DecodeState F :=
  { d with
    bootRuns := d.bootRuns ++ [(true, tStart, dur)]
    bootMarks := d.bootMarks ++ [dur] }

def onMarkEnd (tStart dur : F) (d : DecodeState F) : Except PyExc (Emitted F (DecodeState F)) :=
  let d := recordMark tStart dur d
  match d.dit with
  | none =>
      let d := bufferMark tStart dur d
      if d.cfg.bootMarks ≤ d.bootMarks.length then
        replayBoot { d with dit := some (estimateDit d.bootMarks) }
      else .ok ([], d)
  | some _ => do
      let d ← addElement tStart dur d
      .ok ([], d)

def onSpaceEnd (dur : F) (d : DecodeState F) : Except PyExc (Emitted F (DecodeState F)) :=
  match d.dit with
  | none =>
      .ok ([], if d.bootMarks = [] then d
        else { d with bootRuns := d.bootRuns ++ [(false, d.runStartS, dur)] })
  | some _ => spaceLogic dur (d.runStartS + dur) d

/-! ## Envelope and keyed state -/

def commit (newState : Bool) (tS : F) (d : DecodeState F) :
    Except PyExc (Emitted F (DecodeState F)) := do
  let dur := tS - d.runStartS
  let (out, d) ← if d.state then onMarkEnd d.runStartS dur d else onSpaceEnd dur d
  .ok (out, { d with runStartS := tS, state := newState, candCount := 0 })

/-- The first part of `_step`: smoothing, trackers, thresholds, telemetry, squelch. -/
def levels (log10 : F → F) (mag tS : F) (d : DecodeState F) :
    Except PyExc (Levels F × DecodeState F) := do
  let c := d.cfg
  let e := match d.env with
    | none => mag
    | some env => env + c.envSmooth * (mag - env)
  let (peak, floor) := match d.peak, d.floor with
    | some peak, some floor => (peak, floor)
    | _, _ => (e, e)
  let peak := if peak < e then e else peak + c.peakRelease * (e - peak)
  let floor := if e < floor then e else floor + c.floorRise * (e - floor)
  let rng := PyFloat.max (peak - floor) (lit (1 / 1000000000))
  let thr := floor + lit (1 / 2) * rng
  let ratio ← divide (peak + lit (1 / 1000000000)) (floor + lit (1 / 1000000000))
  let snr := lit 10 * log10 ratio
  .ok ({ e
         hi := thr + c.hysteresis * rng
         lo := thr - c.hysteresis * rng
         squelched := decide (lit 0 < c.squelchDb) && decide (snr < c.squelchDb) },
       { d with
         env := some e, peak := some peak, floor := some floor, snr
         result := { d.result with
           envelopeT := d.result.envelopeT ++ [PyFloat.round tS 4]
           envelopeMag := d.result.envelopeMag ++ [PyFloat.round ((e - floor) / rng) 4]
           envelopeThr := d.result.envelopeThr ++ [lit (1 / 2)] } })

/-- The candidate state with hysteresis: it starts from the carried candidate. -/
def candidate (lv : Levels F) (d : DecodeState F) : Bool :=
  if !d.state && decide (lv.hi < lv.e) && !lv.squelched then true
  else if d.state && (decide (lv.e < lv.lo) || lv.squelched) then false
  else d.cand

/-- The debounce: the candidate has to persist before it is committed. -/
def debounce (cand : Bool) (tS : F) (d : DecodeState F) :
    Except PyExc (Emitted F (DecodeState F)) :=
  if cand != d.state then
    let d :=
      if cand == d.cand then { d with candCount := d.candCount + 1 }
      else { d with cand, candCount := 1 }
    if d.debounceN ≤ d.candCount then commit cand tS d else .ok ([], d)
  else .ok ([], { d with cand := d.state, candCount := 0 })

def step (log10 : F → F) (mag tS : F) (d : DecodeState F) :
    Except PyExc (Emitted F (DecodeState F)) := do
  let (lv, d) ← levels log10 mag tS d
  debounce (candidate lv d) tS d

/-! ## End of stream -/

/-- The end of a dangling mark; the characters `_on_mark_end` returns are not kept. -/
def closeMark (d : DecodeState F) : Except PyExc (DecodeState F) :=
  if d.state then do
    let (_, d) ← onMarkEnd d.runStartS (d.now - d.runStartS) d
    .ok { d with state := false }
  else .ok d

/-- The bootstrap of a stream that ended before `boot_marks` marks. -/
def finishBoot (d : DecodeState F) : Except PyExc (Emitted F (DecodeState F)) :=
  if d.dit.isNone ∧ d.bootMarks ≠ [] then
    replayBoot { d with dit := some (estimateDit d.bootMarks) }
  else .ok ([], d)

def flush (d : DecodeState F) : Except PyExc (Emitted F (DecodeState F)) :=
  if d.flushed then .ok ([], d)
  else do
    let now := d.now
    let d ← closeMark d
    let (out, d) ← finishBoot d
    let (last, d) := flushChar now true d
    .ok (out ++ last, { d with
      result := { d.result with
        text := rstrip d.result.text
        wpmFinal := PyFloat.round d.wpm 1 }
      flushed := true })

end DecodeState

namespace CWDecoder

variable {F S : Type} [PyFloat F]

/-- `_build_twiddles`: the tone the twiddles are now for. It divides by the sample rate. -/
def buildTwiddles (fs : ℕ) (tone : F) : Except PyExc F :=
  if fs = 0 then .error .zeroDivision else .ok tone

/-- `CWDecoder(sample_rate, config)`, with `reset()`. -/
def init (fs : ℕ) (c : CWConfig F) : Except PyExc (CWDecoder F S) := do
  let block ← PyFloat.roundInt (c.blockMs / lit 1000 * lit fs)
  let twTone ← buildTwiddles fs c.toneHz
  let ratio ← divide c.debounceMs c.blockMs
  let debounce ← PyFloat.roundInt ratio
  .ok {
    fs, cfg := c
    block := (max 8 block).toNat
    twTone
    carry := [], tSamples := 0
    env := none, peak := none, floor := none
    state := false, cand := false, runStartS := lit 0
    debounceN := (max 1 debounce).toNat
    candCount := 0
    dit := DecodeState.initialDit c
    bootRuns := [], bootMarks := [], cur := [], curStart := lit 0
    wpm := (c.expectedWpm.getD (lit 0))
    snr := lit 0, flushed := false, afcBuf := [], afcLastS := lit 0
    result := { sampleRate := fs, toneHz := c.toneHz, wpmFinal := lit 0 } }

/-! ## Automatic frequency control -/

/-- `xs[-cap:]`, where `-0` takes everything. -/
def takeLast (cap : ℤ) (xs : List S) : List S :=
  if cap = 0 then xs
  else if 0 < cap then xs.drop (xs.length - cap.toNat)
  else xs.drop (-cap).toNat

def afcAppend (samples : List S) (d : CWDecoder F S) : Except PyExc (CWDecoder F S) := do
  let cap ← PyFloat.trunc (d.cfg.afcWindowS * lit d.fs)
  .ok { d with afcBuf := takeLast cap (d.afcBuf ++ samples) }

def afcMaybeRetune (dsp : Dsp F S) (d : CWDecoder F S) : Except PyExc (CWDecoder F S) := do
  let c := d.cfg
  let now := d.now
  if d.state || decide (now - d.afcLastS < c.afcIntervalS) then return d
  let need ← PyFloat.trunc (lit (1 / 2) * c.afcWindowS * lit d.fs)
  if (d.afcBuf.length : ℤ) < need then return d
  let d := { d with afcLastS := now }
  let (freq, prominence) := dsp.detectTonePeak d.afcBuf d.fs c.afcBand.1 c.afcBand.2
  if prominence < c.afcMinProminence then return d
  if PyFloat.abs (freq - c.toneHz) < c.afcMinShiftHz then return d
  let twTone ← buildTwiddles d.fs freq
  return { d with
    cfg := { c with toneHz := freq }
    twTone
    result := { d.result with toneHz := freq } }

/-- `if self.cfg.afc: ...`. -/
def whenAfc (act : CWDecoder F S → Except PyExc (CWDecoder F S)) (d : CWDecoder F S) :
    Except PyExc (CWDecoder F S) :=
  if d.cfg.afc then act d else .ok d

/-! ## Public methods -/

/-- `samples * input_gain`, unless the gain is one. -/
def applyGain (dsp : Dsp F S) (gain : F) (samples : List S) : List S :=
  if gain == lit 1 then samples else samples.map fun x => dsp.scale x gain

/-- One block of the loop of `process`. -/
def processBlock (dsp : Dsp F S) (d : CWDecoder F S) (blk : List S) :
    Except PyExc (Emitted F (CWDecoder F S)) := do
  let mag := dsp.toneMag d.fs d.twTone blk
  let (out, k) ← d.toDecodeState.step dsp.log10 mag d.now
  .ok (out, { d with toDecodeState := { k with tSamples := d.tSamples + d.block } })

def process (dsp : Dsp F S) (d : CWDecoder F S) (samples : List S) :
    Except PyExc (Emitted F (CWDecoder F S)) := do
  let samples := applyGain dsp d.cfg.inputGain samples
  let d ← whenAfc (afcAppend samples) d
  let buf := d.carry ++ samples
  let (out, d) ← emitAll (processBlock dsp) d (Blocks.blocks d.block buf)
  let d ← whenAfc (afcMaybeRetune dsp) { d with carry := Blocks.remainder d.block buf }
  .ok (out, d)

def flush (d : CWDecoder F S) : Except PyExc (Emitted F (CWDecoder F S)) := do
  let (out, k) ← d.toDecodeState.flush
  .ok (out, { d with toDecodeState := k })

def finalize (d : CWDecoder F S) : Except PyExc (DecodeResult F × CWDecoder F S) := do
  let (_, d) ← flush d
  .ok (d.result, d)

end CWDecoder

/-- `decode_array(samples, sample_rate, config)`. -/
def decodeArray {F S : Type} [PyFloat F] (dsp : Dsp F S) (samples : List S) (fs : ℕ)
    (c : CWConfig F) : Except PyExc (DecodeResult F) := do
  let d ← CWDecoder.init fs c
  let (_, d) ← CWDecoder.process dsp d samples
  let (r, _) ← CWDecoder.finalize d
  .ok r

end CwStation
