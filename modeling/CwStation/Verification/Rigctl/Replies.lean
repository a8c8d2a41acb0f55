import CwStation.Library.Buffers
import CwStation.Library.Effects
import CwStation.Model.Rigctl

/-! # Reply lines off the socket

However the bytes are cut into chunks, `_readline` returns the lines of the stream one
after another, and a request reads the next of them. -/

namespace CwStation.RigctldClient

open Effects Frames

/-- The bytes that can still be received: those before the first failure. -/
def received : List RecvOutcome → List UInt8
  | [] => []
  | .failed _ :: _ => []
  | .chunk bytes :: recvs => if bytes = [] then [] else bytes ++ received recvs

/-- The reply lines that are complete, buffered or still to be received. -/
def replies (c : RigctldClient) : List Str :=
  (frames 10 (c.buf ++ received c.recvs)).map fun line => strip (decodeAscii line)

/-- The loop gets a newline into the buffer if one is to come, and loses no byte. -/
theorem fill_spec (buf : List UInt8) (recvs : List RecvOutcome) :
    (10 ∈ buf ++ received recvs ∧ ∃ buf' recvs', fill buf recvs = (.ok (), buf', recvs') ∧
      10 ∈ buf' ∧ buf' ++ received recvs' = buf ++ received recvs) ∨
    (10 ∉ buf ++ received recvs ∧ ∃ e buf' recvs', fill buf recvs = (.error e, buf', recvs')) := by
  induction recvs generalizing buf with
  | nil =>
    by_cases h : 10 ∈ buf
    · exact .inl ⟨by simp [h], buf, [], by simp [fill, h], h, rfl⟩
    · refine .inr ⟨by simp [received, h], ?_⟩
      simp only [fill, h, ite_false]
      exact ⟨_, buf, [], rfl⟩
  | cons r recvs ih =>
    by_cases h : 10 ∈ buf
    · exact .inl ⟨by simp [h], buf, r :: recvs, by simp [fill, h], h, rfl⟩
    cases r with
    | failed msg =>
      refine .inr ⟨by simp [received, h], ?_⟩
      simp only [fill, h, ite_false]
      exact ⟨_, buf, recvs, rfl⟩
    | chunk bytes =>
      cases bytes with
      | nil =>
        refine .inr ⟨by simp [received, h], ?_⟩
        simp only [fill, h, ite_false]
        exact ⟨_, buf, recvs, rfl⟩
      | cons b bytes =>
        have hmore : fill buf (.chunk (b :: bytes) :: recvs) =
            fill (buf ++ b :: bytes) recvs := by
          simp only [fill, h, ite_false]
        have hsame : buf ++ received (.chunk (b :: bytes) :: recvs) =
            buf ++ (b :: bytes) ++ received recvs := by
          simp [received]
        rw [hmore, hsame]
        exact ih (buf ++ b :: bytes)

/-- The client with other input left to read. -/
def withInput (c : RigctldClient) (buf : List UInt8) (recvs : List RecvOutcome) : RigctldClient :=
  { c with buf, recvs }

/-- A line is read exactly when a complete one is to come, and the others stay. -/
theorem readline_spec {c : RigctldClient} (hsock : c.sock = true) :
    (∃ line buf recvs, readline c = .ok line (c.withInput buf recvs) ∧
      replies c = line :: replies (c.withInput buf recvs)) ∨
    (replies c = [] ∧ ∃ e buf recvs, readline c = .error e (c.withInput buf recvs)) := by
  rcases fill_spec c.buf c.recvs with ⟨-, buf, recvs, hfill, hmem, hstream⟩ |
    ⟨hnone, e, buf, recvs, hfill⟩
  · refine .inl ⟨_, _, recvs, by
      simp only [readline, withInput, hsock, ite_true, hfill]
      rfl, ?_⟩
    simp only [replies, withInput, ← hstream, frames_append hmem, List.map_cons]
    rfl
  · refine .inr ⟨by simp [replies, frames_of_not_mem hnone], e, buf, recvs, ?_⟩
    simp only [readline, withInput, hsock, ite_true, hfill]

/-! ## Requests -/

/-- The outcome of the next write. -/
def nextSend (sends : List SendOutcome) : SendOutcome := sends.headD (.failed 0 timedOut)

/-- The bytes of a command the next write gets out. -/
def nextWritten (sends : List SendOutcome) (command : Str) : ℕ :=
  match nextSend sends with
  | .sent => command.length + 1
  | .failed written _ => min written (command.length + 1)

/-- What a one-line request returns for its reply line, if it accepts it. -/
def answer (line : Str) : Option (List Str) :=
  if isReport line then if reportCode line = ['0'] then some [] else none
  else some [line]

/-- The client after the write of a command. -/
def wrote (command : Str) (c : RigctldClient) : RigctldClient :=
  { c with
    sends := c.sends.tail
    acts := c.acts ++ [.send command (nextWritten c.sends command)] }

theorem sendall_spec {c : RigctldClient} (hsock : c.sock = true) (command : Str) :
    (nextSend c.sends = .sent ∧ sendall command c = .ok () (wrote command c)) ∨
    (nextSend c.sends ≠ .sent ∧ ∃ e, sendall command c = .error e (wrote command c)) := by
  have hnext : c.sends.headD (.failed 0 timedOut) = nextSend c.sends := rfl
  cases hsend : nextSend c.sends with
  | sent =>
    refine .inl ⟨rfl, ?_⟩
    simp only [sendall, hsock, ite_true, hnext, hsend, wrote, nextWritten]
  | failed written msg =>
    refine .inr ⟨by simp, ?_⟩
    simp only [sendall, hsock, ite_true, hnext, hsend, wrote, nextWritten]
    exact ⟨_, rfl⟩

theorem replyLoop_of_line {c c' : RigctldClient} {line : Str} (h : readline c = .ok line c')
    (command : Str) :
    (∃ lines, answer line = some lines ∧ replyLoop command 1 [] c = .ok lines c') ∨
    (answer line = none ∧ ∃ e, replyLoop command 1 [] c = .error e c') := by
  rw [replyLoop, bind_of_ok h]
  by_cases hrep : isReport line = true
  · by_cases hcode : reportCode line = ['0']
    · refine .inl ⟨[], by simp [answer, hrep, hcode], ?_⟩
      simp only [hrep, ite_true, hcode]
      rfl
    · refine .inr ⟨by simp [answer, hrep, hcode], ?_⟩
      simp only [hrep, ite_true, ne_eq, hcode, not_false_eq_true]
      exact ⟨_, rfl⟩
  · refine .inl ⟨[line], by simp [answer, hrep], ?_⟩
    simp only [hrep]
    rfl

/-- Over an open socket a request is the write of its command and the reading of lines. -/
theorem request_of_sock {c : RigctldClient} (hsock : c.sock = true) {command : Str}
    (hascii : command.all (·.toNat < 128) = true) (n : ℕ) :
    request command n c = (sendall command >>= fun _ => replyLoop command n []) c := by
  simp only [request, encodeAscii, bind, EStateM.bind, get, getThe, MonadStateOf.get, get_eq_ok,
    hsock, hascii]
  rfl

/-- A one-line request over an open socket writes its command once. It returns exactly when
the write succeeds and an accepted line is to come. -/
theorem request_spec {c : RigctldClient} (hsock : c.sock = true) {command : Str}
    (hascii : command.all (·.toNat < 128) = true) :
    (∃ line lines buf recvs, nextSend c.sends = .sent ∧
      replies c = line :: replies ((wrote command c).withInput buf recvs) ∧ answer line = some lines ∧
      request command 1 c = .ok lines ((wrote command c).withInput buf recvs)) ∨
    (¬ (nextSend c.sends = .sent ∧ ∃ line lines, (replies c).head? = some line ∧
        answer line = some lines) ∧
      ∃ e buf recvs, request command 1 c = .error e ((wrote command c).withInput buf recvs)) := by
  have hstart := request_of_sock hsock hascii 1
  have hopen : (wrote command c).sock = true := hsock
  rcases sendall_spec hsock command with ⟨hsend, hok⟩ | ⟨hsend, e, hfail⟩
  · rw [bind_of_ok hok] at hstart
    rcases readline_spec hopen with ⟨line, buf, recvs, hread, hreplies⟩ |
      ⟨hnone, e, buf, recvs, hread⟩
    · have hsame : replies c = line :: replies ((wrote command c).withInput buf recvs) := hreplies
      rcases replyLoop_of_line hread command with ⟨lines, hans, hloop⟩ | ⟨hans, e, hloop⟩
      · exact .inl ⟨line, lines, buf, recvs, hsend, hsame, hans, hstart.trans hloop⟩
      · exact .inr ⟨by simp [hsame, hans], e, buf, recvs, hstart.trans hloop⟩
    · have hsame : replies c = [] := hnone
      refine .inr ⟨by simp [hsame], e, buf, recvs, ?_⟩
      rw [hstart, replyLoop, bind_of_error hread]
  · refine .inr ⟨fun h => hsend h.1, e, c.buf, c.recvs, ?_⟩
    rw [hstart, bind_of_error hfail]
    rfl

end CwStation.RigctldClient
