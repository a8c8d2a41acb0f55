import CwStation.Library.Edges
import CwStation.Model.Python

/-! # The simulated band: `engine/simulate.py`

What the random numbers come out as is a script, and so is whether the signals are paused while
a block is made. -/

namespace CwStation.Simulate

variable {F : Type} [Add F]

/-- What a draw of `_schedule_next` comes out as, with the audio of `synthesize_cw`, which begins
and ends with silence and is never empty. -/
structure Station (F : Type) where
  text : Str
  toneHz : F
  wpm : F
  amplitude : F
  audio : List F
  audio_ne_nil : audio ≠ []

structure SimTransmission (F : Type) extends Station F where
  startSample : ℕ

/-- `tx.start_sample + len(tx.audio)`. -/
def SimTransmission.stop (tx : SimTransmission F) : ℕ := tx.startSample + tx.audio.length

/-- The transmission has a sample at this position. -/
def SimTransmission.Covers (tx : SimTransmission F) (p : ℕ) : Prop := tx.startSample ≤ p ∧ p < tx.stop

/-- The outcomes of the draws: the noise of each block, the stations, and the idle times in
samples; and whether the signals are paused during each block. -/
structure Script (F : Type) (blockSize : ℕ) where
  noise : ℕ → List F
  noise_length : ∀ k, (noise k).length = blockSize
  station : ℕ → Station F
  idle : ℕ → ℕ
  paused : ℕ → Bool

/-- `_pos`, `_current`, `_next_start` and `log`, and how many blocks have been made. -/
structure Band (F : Type) where
  pos : ℕ := 0
  made : ℕ := 0
  current : Option (SimTransmission F) := none
  nextStart : ℕ
  log : List (SimTransmission F) := []

variable {blockSize : ℕ} (script : Script F blockSize)

/-- `__init__`. -/
def Script.start : Band F := { nextStart := script.idle 0 }

/-- `_schedule_next`. -/
def Script.scheduleNext (band : Band F) : Band F :=
  let tx : SimTransmission F :=
    { toStation := script.station band.log.length, startSample := band.nextStart }
  { band with current := some tx, log := band.log ++ [tx] }

/-- The band that a block is mixed from: the next station is scheduled when it is due. -/
def Script.due (band : Band F) : Band F :=
  if band.current.isNone ∧ band.nextStart ≤ band.pos + blockSize then script.scheduleNext band
  else band

/-- `block[a - pos : b - pos] += tx.audio[a - start : b - start]`, where they overlap. -/
def mix (pos : ℕ) (tx : SimTransmission F) (block : List F) : List F :=
  let a := max pos tx.startSample
  let b := min (pos + block.length) tx.stop
  if a < b then
    Edges.write (List.zipWith (· + ·) (block.drop (a - pos))
      ((tx.audio.drop (a - tx.startSample)).take (b - a))) block (a - pos)
  else block

/-- A transmission that ends within the block makes way for the next. -/
def Script.finish (band : Band F) (tx : SimTransmission F) : Band F :=
  if tx.stop ≤ band.pos + blockSize then
    { band with current := none, nextStart := tx.stop + script.idle band.log.length }
  else band

def advance (blockSize : ℕ) (band : Band F) : Band F :=
  { band with pos := band.pos + blockSize, made := band.made + 1 }

/-- One turn of the loop of `blocks`. -/
def Script.next (band : Band F) : List F × Band F :=
  let block := script.noise band.made
  if script.paused band.made then (block, advance blockSize band)
  else
    let band := script.due band
    match band.current with
    | none => (block, advance blockSize band)
    | some tx => (mix band.pos tx block, advance blockSize (script.finish band tx))

/-- The loop is left; `stopAt` is `end`. -/
def Ended (stopAt : Option ℕ) (band : Band F) : Prop := ∃ last ∈ stopAt, last ≤ band.pos

instance (stopAt : Option ℕ) (band : Band F) : Decidable (Ended stopAt band) :=
  inferInstanceAs (Decidable (∃ last ∈ stopAt, last ≤ band.pos))

/-- The samples of the first `k` blocks, as far as the run goes, and the band behind them. -/
def Script.run (stopAt : Option ℕ) : ℕ → List F × Band F
  | 0 => ([], script.start)
  | k + 1 =>
      let (samples, band) := Script.run stopAt k
      if Ended stopAt band then (samples, band)
      else
        let (block, band) := script.next band
        (samples ++ block, band)

/-- `truth`. -/
def truth (band : Band F) : Str := List.intercalate [' '] (band.log.map fun tx => tx.text)

end CwStation.Simulate
