import CwStation.Model.Python

/-! # The rigctld client: `rigctl.py`

A client with the socket under it. What the network will do is a script: the outcome of
each further call on a socket. A script that has run out times out. -/

namespace CwStation

/-- What one `sendall` does: all bytes are written, or it raises `OSError` with some of
them, possibly all, written. -/
inductive SendOutcome
  | sent
  | failed (written : ℕ) (msg : String)
  deriving DecidableEq

/-- What one `recv` does. No bytes at all means that the peer has closed. -/
inductive RecvOutcome
  | chunk (bytes : List UInt8)
  | failed (msg : String)
  deriving DecidableEq

/-- What a worker does that others can see. `send` has the number of bytes written. -/
inductive Act
  | connect
  | send (command : Str) (written : ℕ)
  | close
  | sleep (ms : ℕ)
  | play
  | release
  deriving DecidableEq

/-- `RigctldClient`, the outcomes of its socket calls, and what has been done so far. An
outcome `some msg` is an `OSError`. -/
structure RigctldClient where
  host : Str
  port : ℕ
  sock : Bool := false
  buf : List UInt8 := []
  connects : List (Option String)
  sends : List SendOutcome
  recvs : List RecvOutcome
  closes : List (Option String)
  acts : List Act := []

namespace PyExc

def rigError (msg : String) : PyExc := ⟨.rigError, msg⟩
def osError (msg : String) : PyExc := ⟨.osError, msg⟩

end PyExc

namespace RigctldClient

abbrev Rigctl := EStateM PyExc RigctldClient

def timedOut : String := "timed out"

/-! ## Connection -/

def connect : Rigctl Unit := fun c =>
  let done : RigctldClient :=
    { c with connects := c.connects.tail, acts := c.acts ++ [.connect] }
  match c.connects.headD (some timedOut) with
  | none => .ok () { done with sock := true }
  | some msg => .error (.rigError ("rigctld unreachable at " ++ String.ofList c.host ++ ":" ++
      toString c.port ++ " (" ++ msg ++ ")")) done

def close : Rigctl Unit := fun c =>
  if c.sock then
    let done : RigctldClient :=
      { c with sock := false, closes := c.closes.tail, acts := c.acts ++ [.close] }
    match c.closes.headD none with
    | none => .ok () done
    | some msg => .error (.osError msg) done
  else .ok () c

/-! ## Protocol -/

/-- The loop of `_readline`: receive until a newline is buffered. -/
def fill : List UInt8 → List RecvOutcome →
    Except PyExc Unit × List UInt8 × List RecvOutcome
  | buf, [] =>
      if 10 ∈ buf then (.ok (), buf, [])
      else (.error (.rigError ("rigctld read failed (" ++ timedOut ++ ")")), buf, [])
  | buf, r :: recvs =>
      if 10 ∈ buf then (.ok (), buf, r :: recvs)
      else match r with
        | .failed msg => (.error (.rigError ("rigctld read failed (" ++ msg ++ ")")), buf, recvs)
        | .chunk [] => (.error (.rigError "rigctld closed the connection"), buf, recvs)
        | .chunk bytes => fill (buf ++ bytes) recvs

/-- `bytes.decode("ascii", "replace")`. -/
def decodeAscii (bytes : List UInt8) : Str :=
  bytes.map fun b => if b.toNat < 128 then Char.ofNat b.toNat else Char.ofNat 0xfffd

def readline : Rigctl Str := fun c =>
  if c.sock then
    match fill c.buf c.recvs with
    | (.error e, buf, recvs) => .error e { c with buf, recvs }
    | (.ok (), buf, recvs) =>
        .ok (strip (decodeAscii (buf.takeWhile (· ≠ 10))))
          { c with buf := (buf.dropWhile (· ≠ 10)).drop 1, recvs }
  else .error .assertion c

/-- `sendall` of a command and a newline. -/
def sendall (command : Str) : Rigctl Unit := fun c =>
  let size := command.length + 1
  let done (written : ℕ) : RigctldClient :=
    { c with sends := c.sends.tail, acts := c.acts ++ [.send command written] }
  if c.sock then
    match c.sends.headD (.failed 0 timedOut) with
    | .sent => .ok () (done size)
    | .failed written msg =>
        .error (.rigError ("rigctld write failed (" ++ msg ++ ")")) (done (min written size))
  else .error .assertion c

/-- `line.split()[-1]` of a line that starts with `RPRT`. -/
def reportCode (line : Str) : Str := (splitSpaces line).getLastD []

def isReport (line : Str) : Bool := "RPRT".toList.isPrefixOf line

/-- The loop of `_request` over the reply lines. -/
def replyLoop (command : Str) : ℕ → List Str → Rigctl (List Str)
  | 0, lines => pure lines
  | n + 1, lines => do
      let line ← readline
      if isReport line then
        if reportCode line ≠ ['0'] then
          throw (.rigError ("rig rejected '" ++ String.ofList ((splitSpaces command).headD []) ++
            "' (RPRT " ++ String.ofList (reportCode line) ++ ")"))
        pure lines
      else replyLoop command n (lines ++ [line])

/-- `command.encode("ascii")`, which refuses other characters. -/
def encodeAscii (command : Str) : Rigctl Unit :=
  if command.all (·.toNat < 128) then pure ()
  else throw ⟨.valueError, "'ascii' codec can't encode character"⟩

def request (command : Str) (replyLines : ℕ) : Rigctl (List Str) := do
  unless (← get).sock do connect
  encodeAscii command
  sendall command
  replyLoop command replyLines []

/-! ## The station's vocabulary -/

def raiseIn {α : Type} : Except PyExc α → Rigctl α
  | .ok a => pure a
  | .error e => throw e

/-- `int(float(s))` is `toInt`. -/
def getFreq (toInt : Str → Except PyExc ℤ) : Rigctl ℤ := do
  match ← request "f".toList 1 with
  | [] => throw .listIndex
  | line :: _ => raiseIn (toInt line)

def setFreq (hz : ℤ) : Rigctl Unit := do
  let text ← raiseIn (intText hz)
  let _ ← request ("F ".toList ++ text) 1

/-- The mode and its passband. -/
def getMode (toInt : Str → Except PyExc ℤ) : Rigctl (Str × ℤ) := do
  let lines ← request "m".toList 2
  let passband ← match lines with
    | _ :: line :: _ => raiseIn (toInt line)
    | _ => pure 0
  match lines with
  | [] => throw .listIndex
  | mode :: _ => pure (mode, passband)

def setMode (mode : Str) (passband : ℤ) : Rigctl Unit := do
  let text ← raiseIn (intText passband)
  let _ ← request ("M ".toList ++ mode ++ ' ' :: text) 1

def getPtt : Rigctl Bool := do
  match ← request "t".toList 1 with
  | [] => throw .listIndex
  | line :: _ => pure (strip line = ['1'])

def setPtt (on : Bool) : Rigctl Unit := do
  let _ ← request (if on then "T 1".toList else "T 0".toList) 1

end RigctldClient

end CwStation
