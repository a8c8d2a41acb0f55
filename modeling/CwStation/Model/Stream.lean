import CwStation.Model.Bridge
import CwStation.Model.Morse

/-! # Incremental streaming of a live result: `engine/stream.py` -/

namespace CwStation

open PyFloat (lit)

/-- `batch["meta"]`. -/
structure BatchMeta (F : Type) where
  toneHz : F
  wpm : F
  snr : F
  source : Str
  feed : Str
  calls : List Str

/-- A batch. Its entries carry every field of the events they are made from, so they are
the events. -/
structure Batch (F : Type) where
  chars : List (CharEvent F)
  keyRuns : List (KeyRun F)
  envT : List F
  envMag : List F
  info : BatchMeta F

/-- `ResultStreamer`, without the result it watches, which its methods are given. -/
structure ResultStreamer (F : Type) where
  intervalS : F
  source : Str
  feedId : Str
  chars : ℕ
  runs : ℕ
  env : ℕ
  lastFlush : F

namespace ResultStreamer

variable {F : Type} [PyFloat F]

/-- `ResultStreamer(result, send, interval_s, source)`. -/
def init (intervalS : F) (source feedId : Str) : ResultStreamer F where
  intervalS := intervalS
  source := source
  feedId := feedId
  chars := 0
  runs := 0
  env := 0
  lastFlush := lit 0

/-- The stream time of a result: of its last envelope block, else of its last character. -/
def streamTime (r : DecodeResult F) : F :=
  match r.envelopeT.getLast? with
  | some t => t
  | none =>
      match r.chars.getLast? with
      | some c => c.tEnd
      | none => lit 0

/-- The completed words of a text. -/
def completed (text : Str) : Str := if endsWithSpace text then text else beforeLastSpace text

def batchMeta (u : Unicode) (r : DecodeResult F) (st : ResultStreamer F) : BatchMeta F :=
  let lastChar := r.chars.reverse.find? fun c => c.char != [' ']
  { toneHz := r.toneHz
    wpm := (lastChar.map CharEvent.wpm).getD (lit 0)
    snr := (lastChar.map CharEvent.snrDb).getD (lit 0)
    source := if st.source = [] then r.engine else st.source
    feed := st.feedId
    calls := Bridge.extractCallsigns u (completed r.text) }

/-- `_diff`: the batch of everything new, if anything is. -/
def diff (u : Unicode) (r : DecodeResult F) (st : ResultStreamer F) :
    Option (Batch F × ResultStreamer F) :=
  let chars := r.chars.drop st.chars
  let runs := r.keyRuns.drop st.runs
  let envT := r.envelopeT.drop st.env
  let envMag := r.envelopeMag.drop st.env
  if chars = [] ∧ runs = [] ∧ envT = [] then none
  else some (⟨chars, runs, envT, envMag, batchMeta u r st⟩,
    { st with chars := r.chars.length, runs := r.keyRuns.length, env := r.envelopeT.length })

/-- `tick(force)`, with the batches it sends. -/
def tick (u : Unicode) (force : Bool) (r : DecodeResult F) (st : ResultStreamer F) :
    List (Batch F) × ResultStreamer F :=
  let now := streamTime r
  if !force && decide (now - st.lastFlush < st.intervalS) then ([], st)
  else
    match diff u r st with
    | none => ([], { st with lastFlush := now })
    | some (batch, st) => ([batch], { st with lastFlush := now })

def flush (u : Unicode) (r : DecodeResult F) (st : ResultStreamer F) :
    List (Batch F) × ResultStreamer F := tick u true r st

/-- What becomes of a batch when `send` may raise. -/
inductive Sending (F : Type)
  | nothing
  | sent (b : Batch F)
  | raised (b : Batch F)

/-- `tick(force)` with a `send` that may raise. The exception leaves `_last_flush` as it was. -/
def trySend (u : Unicode) (raises force : Bool) (r : DecodeResult F) (st : ResultStreamer F) :
    Sending F × ResultStreamer F :=
  let now := streamTime r
  if !force && decide (now - st.lastFlush < st.intervalS) then (.nothing, st)
  else
    match diff u r st with
    | none => (.nothing, { st with lastFlush := now })
    | some (batch, st) =>
        if raises then (.raised batch, st) else (.sent batch, { st with lastFlush := now })

def Sending.delivered : Sending F → List (Batch F)
  | .sent b => [b]
  | _ => []

def Sending.dropped : Sending F → List (Batch F)
  | .raised b => [b]
  | _ => []

end ResultStreamer

end CwStation
