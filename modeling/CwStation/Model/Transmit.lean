import CwStation.Library.Effects
import CwStation.Model.Rigctl

/-! # Keying a message through the rig: `transmit.py` -/

namespace CwStation

open Effects (zoom)
open RigctldClient (connect close getPtt setPtt)

/-- The fields of `CWRig` a transmission reads. -/
structure CWRig where
  host : Str
  port : ℕ
  usePtt : Bool
  audioOutput : Str
  pttLeadMs : ℕ

/-- `CWSession.Source`. -/
inductive Source
  | synth
  | wav
  | text
  | live
  deriving DecidableEq

/-- What a transmission reads of a `CWSession`; `audioFloat` is the outcome of
`session_audio_float`, samples `A` with their rate. -/
structure CWSession (A : Type) where
  pk : ℕ
  source : Source
  audioFloat : Except PyExc (A × ℕ)

def CWSession.hasAudio {A : Type} (session : CWSession A) : Bool :=
  session.source = .synth || session.source = .text

/-- `_state`. -/
structure TxState where
  transmitting : Bool := false
  sessionId : Option ℕ := none
  error : String := ""

/-- The process: `_lock`, `_state`, and the client of the transmission. -/
structure Station where
  lock : Bool
  tx : TxState
  client : RigctldClient

/-- Where the worker runs: in the caller's thread, or in a thread of its own, which may
fail to start. -/
inductive Worker
  | blocking
  | thread (start : Except PyExc Unit)

namespace Station

abbrev Run := EStateM PyExc Station

def onClient {α : Type} (x : RigctldClient.Rigctl α) : Run α :=
  zoom Station.client (fun s client => { s with client }) x

def act (a : Act) : Run Unit :=
  onClient fun c => .ok () { c with acts := c.acts ++ [a] }

def raiseFrom {α : Type} : Except PyExc α → Run α
  | .ok a => pure a
  | .error e => throw e

variable {A : Type} (rig : CWRig) (session : CWSession A)
  (player : A → ℕ → Str → Except PyExc Unit)

/-- `RigctldClient(rig.host, rig.port)`, over the socket outcomes that are left. -/
def newClient (rig : CWRig) (c : RigctldClient) : RigctldClient :=
  { c with host := rig.host, port := rig.port, sock := false, buf := [] }

/-- The key-down part of the body. -/
def pressKey : Run Unit := do
  if ← onClient getPtt then throw (.rigError "PTT is already keyed — not stomping on it.")
  onClient (setPtt true)
  act (.sleep rig.pttLeadMs)

/-- Playback, with the inner `finally`. -/
def playback (audio : A) (sampleRate : ℕ) : Run Unit := do
  try
    act .play
    raiseFrom (player audio sampleRate rig.audioOutput)
  finally
    if rig.usePtt then onClient (setPtt false)

/-- The body of the outer `try`. -/
def keyAndPlay (audio : A) (sampleRate : ℕ) : Run Unit := do
  onClient connect
  if rig.usePtt then pressKey rig
  playback rig player audio sampleRate

/-- The `except` clauses: a `BaseException` goes through. -/
def recordError (e : PyExc) : Run Unit :=
  match e.cls with
  | .rigError => modify fun s => { s with tx := { s.tx with error := e.msg } }
  | .base => throw e
  | _ => modify fun s => { s with tx := { s.tx with error := "TX failed: " ++ e.msg } }

/-- The outer `finally`. -/
def tearDown : Run Unit := do
  onClient close
  modify fun s => { s with tx := { s.tx with transmitting := false, sessionId := none } }
  modify fun s => { s with lock := false }
  act .release

/-- `run()`, the worker. -/
def worker (audio : A) (sampleRate : ℕ) : Run Unit := do
  modify fun s => { s with
    tx := { transmitting := true, sessionId := some session.pk, error := "" }
    client := newClient rig s.client }
  try
    keyAndPlay rig player audio sampleRate
  catch e => recordError e
  finally tearDown

/-- The worker's part of a call; an exception in a thread does not reach the caller. -/
def launch (place : Worker) (work : Run Unit) : Run Unit :=
  match place with
  | .blocking => work
  | .thread start => do
      raiseFrom start
      fun s => .ok () (Effects.endState work s)

/-- `transmit_session`, with the run of the worker it starts. The state it returns is
`tx` at the moment it returns. -/
def transmitSession (place : Worker) : Run Unit := do
  unless session.hasAudio do
    throw (.rigError "This session's audio can't be regenerated (uploaded recording).")
  if (← get).lock then throw (.rigError "Already transmitting — one message at a time.")
  modify fun s => { s with lock := true }
  let (audio, sampleRate) ← raiseFrom session.audioFloat
  launch place (worker rig session player audio sampleRate)

end Station

end CwStation
