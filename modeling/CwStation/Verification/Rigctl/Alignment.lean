import CwStation.Verification.Python.Strings
import CwStation.Verification.Rigctl.Replies
import Mathlib.Data.Bool.AllAny

/-! # Every call reads its own reply

A server that answers one command after the other. Whatever the cuts between the chunks,
a call consumes the reply to its own command and nothing else. -/

namespace CwStation.RigctldClient

open Effects Frames

/-! ## Reading whole replies -/

/-- What has arrived or will arrive, and has not been read. -/
def unread (c : RigctldClient) : List UInt8 := c.buf ++ received c.recvs

/-- The text `_readline` makes of a line. -/
def lineText (line : List UInt8) : Str := strip (decodeAscii line)

/-- Lines on the wire. -/
def wire (lines : List (List UInt8)) : List UInt8 := lines.flatMap (· ++ [10])

theorem readline_of_unread {c : RigctldClient} (hsock : c.sock = true) {line rest : List UInt8}
    (hline : 10 ∉ line) (h : unread c = line ++ 10 :: rest) :
    ∃ buf recvs, readline c = .ok (lineText line) (c.withInput buf recvs) ∧
      unread (c.withInput buf recvs) = rest := by
  have hmem : 10 ∈ c.buf ++ received c.recvs := by
    have hin : 10 ∈ unread c := by rw [h]; simp
    exact hin
  rcases fill_spec c.buf c.recvs with ⟨-, buf, recvs, hfill, hnl, hstream⟩ | ⟨hnone, -⟩
  · -- the buffer holds the first newline of the stream
    have hsplit : first 10 buf ++ 10 :: (Frames.rest 10 buf ++ received recvs) =
        line ++ 10 :: rest := by
      rw [← h, unread, ← hstream]
      conv_rhs => rw [first_append_rest hnl]
      simp
    obtain ⟨hfirst, hrest⟩ := cut_unique (not_mem_first 10 buf) hline hsplit
    refine ⟨Frames.rest 10 buf, recvs, ?_, hrest⟩
    simp only [readline, hsock, ite_true, hfill, lineText, withInput, ← hfirst]
    rfl
  · exact absurd hmem hnone

/-- A line that is no report. -/
def IsValue (line : List UInt8) : Prop := 10 ∉ line ∧ isReport (lineText line) = false

theorem replyLoop_values (command : Str) {lines : List (List UInt8)}
    (hlines : ∀ line ∈ lines, IsValue line) {c : RigctldClient} (hsock : c.sock = true)
    {rest : List UInt8} (h : unread c = wire lines ++ rest) (acc : List Str) :
    ∃ buf recvs, replyLoop command lines.length acc c =
        .ok (acc ++ lines.map lineText) (c.withInput buf recvs) ∧
      unread (c.withInput buf recvs) = rest := by
  induction lines generalizing c acc with
  | nil => exact ⟨c.buf, c.recvs, by simp [replyLoop, withInput, pure, EStateM.pure], h⟩
  | cons line lines ih =>
    have hline := hlines line List.mem_cons_self
    have hcut : unread c = line ++ 10 :: (wire lines ++ rest) := by
      rw [h]
      simp [wire]
    obtain ⟨buf, recvs, hread, hleft⟩ := readline_of_unread hsock hline.1 hcut
    obtain ⟨buf', recvs', hloop, hrest⟩ := ih (fun l hl => hlines l (List.mem_cons_of_mem _ hl))
      (c := c.withInput buf recvs) hsock hleft (acc ++ [lineText line])
    refine ⟨buf', recvs', ?_, hrest⟩
    rw [List.length_cons, replyLoop, bind_of_ok hread]
    simp only [hline.2, Bool.false_eq_true, ite_false]
    rw [hloop]
    simp [withInput]

/-- The rejection of a command with a code. -/
def rejected (command code : Str) : PyExc :=
  .rigError ("rig rejected '" ++ String.ofList ((splitSpaces command).headD []) ++
    "' (RPRT " ++ String.ofList code ++ ")")

theorem replyLoop_report (command : Str) {line : List UInt8} (hline : 10 ∉ line)
    (hreport : isReport (lineText line) = true) {c : RigctldClient} (hsock : c.sock = true)
    {rest : List UInt8} (h : unread c = line ++ 10 :: rest) (n : ℕ) :
    ∃ buf recvs, replyLoop command (n + 1) [] c =
        (if reportCode (lineText line) = ['0'] then .ok [] (c.withInput buf recvs)
        else .error (rejected command (reportCode (lineText line))) (c.withInput buf recvs)) ∧
      unread (c.withInput buf recvs) = rest := by
  obtain ⟨buf, recvs, hread, hleft⟩ := readline_of_unread hsock hline h
  refine ⟨buf, recvs, ?_, hleft⟩
  rw [replyLoop, bind_of_ok hread]
  by_cases hcode : reportCode (lineText line) = ['0']
  · simp only [hreport, ite_true, hcode]
    rfl
  · simp only [hreport, ite_true, ne_eq, hcode, not_false_eq_true, ite_false]
    rfl

/-! ## Requests -/

/-- The client when the next command gets through and `chunks` are to be received. -/
def offered (c : RigctldClient) (chunks : List (List UInt8)) : RigctldClient :=
  { c with sends := [.sent], recvs := chunks.map .chunk }

theorem received_chunks {chunks : List (List UInt8)} (h : ∀ chunk ∈ chunks, chunk ≠ []) :
    received (chunks.map .chunk) = chunks.flatten := by
  induction chunks with
  | nil => rfl
  | cons chunk chunks ih =>
    have hne : chunk ≠ [] := h chunk List.mem_cons_self
    simp [received, hne, ih fun d hd => h d (List.mem_cons_of_mem chunk hd)]

theorem request_of_offered {c : RigctldClient} (hsock : c.sock = true) {command : Str}
    (hascii : command.all (·.toNat < 128) = true) (chunks : List (List UInt8)) (n : ℕ) :
    request command n (c.offered chunks) =
      replyLoop command n [] (wrote command (c.offered chunks)) := by
  have hopen : (c.offered chunks).sock = true := hsock
  rw [request_of_sock hopen hascii]
  rcases sendall_spec hopen command with ⟨-, hok⟩ | ⟨hno, -⟩
  · exact bind_of_ok hok
  · exact absurd rfl hno

/-! ## Calls -/

/-- The calls of the client, without `status`, which makes three of them. -/
inductive Call
  | getFreq
  | setFreq (hz : ℤ)
  | getMode
  | setMode (mode : Str) (passband : ℤ)
  | getPtt
  | setPtt (on : Bool)
  deriving DecidableEq

/-- What a call returns. -/
inductive Value
  | freq (hz : ℤ)
  | mode (mode : Str) (passband : ℤ)
  | ptt (on : Bool)
  | done
  deriving DecidableEq

variable (toInt : Str → Except PyExc ℤ)

def Call.run : Call → Rigctl Value
  | .getFreq => Value.freq <$> RigctldClient.getFreq toInt
  | .setFreq hz => (fun _ => Value.done) <$> RigctldClient.setFreq hz
  | .getMode => (fun m => Value.mode m.1 m.2) <$> RigctldClient.getMode toInt
  | .setMode mode passband => (fun _ => Value.done) <$> RigctldClient.setMode mode passband
  | .getPtt => Value.ptt <$> RigctldClient.getPtt
  | .setPtt on => (fun _ => Value.done) <$> RigctldClient.setPtt on

namespace Call

/-- The command of a call. -/
def text : Call → Except PyExc Str
  | .getFreq => .ok "f".toList
  | .setFreq hz => ("F ".toList ++ ·) <$> intText hz
  | .getMode => .ok "m".toList
  | .setMode mode passband => (fun t => "M ".toList ++ mode ++ ' ' :: t) <$> intText passband
  | .getPtt => .ok "t".toList
  | .setPtt on => .ok (if on then "T 1".toList else "T 0".toList)

/-- The lines of the values that answer a call; a call that sets something has none. -/
def valueLines : Call → ℕ
  | .getFreq => 1
  | .getMode => 2
  | .getPtt => 1
  | _ => 0

/-- The lines a call is prepared to read. -/
def replyLines (call : Call) : ℕ := max 1 call.valueLines

/-- What a call makes of the value lines it has read. -/
def read : Call → List Str → Except PyExc Value
  | .getFreq, [] => .error .listIndex
  | .getFreq, line :: _ => Value.freq <$> toInt line
  | .getMode, [] => .error .listIndex
  | .getMode, [mode] => .ok (.mode mode 0)
  | .getMode, mode :: line :: _ => Value.mode mode <$> toInt line
  | .getPtt, [] => .error .listIndex
  | .getPtt, line :: _ => .ok (.ptt (strip line = ['1']))
  | _, _ => .ok .done

theorem raiseIn_map {α β : Type} (f : α → β) (r : Except PyExc α) :
    raiseIn (f <$> r) = f <$> raiseIn r := by
  cases r <;> rfl

theorem raiseIn_ok {α : Type} (a : α) : raiseIn (.ok a) = pure a := rfl

/-- Every call makes its command, asks, and reads the answer. -/
theorem run_eq (call : Call) : call.run toInt = (do
    let text ← raiseIn call.text
    let lines ← request text call.replyLines
    raiseIn (call.read toInt lines)) := by
  cases call with
  | getFreq =>
    simp only [run, RigctldClient.getFreq, text, raiseIn_ok, pure_bind, map_bind]
    apply bind_congr
    intro lines
    cases lines with
    | nil => rfl
    | cons line _ => simp only [read, raiseIn_map]
  | setFreq hz =>
    simp only [run, RigctldClient.setFreq, text, raiseIn_map, bind_map_left, map_bind]
    rfl
  | getMode =>
    simp only [run, RigctldClient.getMode, text, raiseIn_ok, pure_bind, map_bind]
    apply bind_congr
    intro lines
    match lines with
    | [] => rfl
    | [mode] => rfl
    | mode :: line :: _ =>
      simp only [read, raiseIn_map]
      cases toInt line <;> rfl
  | setMode mode passband =>
    simp only [run, RigctldClient.setMode, text, raiseIn_map, bind_map_left, map_bind]
    rfl
  | getPtt =>
    simp only [run, RigctldClient.getPtt, text, raiseIn_ok, pure_bind, map_bind]
    apply bind_congr
    intro lines
    cases lines <;> rfl
  | setPtt on =>
    simp only [run, RigctldClient.setPtt, text, raiseIn_ok, pure_bind, map_bind]
    rfl

/-- The command as it is written, if it can be. -/
def command (call : Call) : Except PyExc Str := do
  let text ← call.text
  if text.all (·.toNat < 128) then .ok text
  else .error ⟨.valueError, "'ascii' codec can't encode character"⟩

theorem command_spec (call : Call) :
    (∃ e, call.text = .error e ∧ call.command = .error e) ∨
    ∃ text, call.text = .ok text ∧
      if text.all (·.toNat < 128) = true then call.command = .ok text
      else call.command = .error ⟨.valueError, "'ascii' codec can't encode character"⟩ := by
  cases htext : call.text with
  | error e => exact .inl ⟨e, rfl, by rw [command, htext]; rfl⟩
  | ok text =>
    refine .inr ⟨text, rfl, ?_⟩
    by_cases hascii : text.all (·.toNat < 128) = true
    · rw [if_pos hascii, command, htext]
      exact if_pos hascii
    · rw [if_neg hascii, command, htext]
      exact if_neg hascii

theorem run_of_command {call : Call} {text : Str} (h : call.command = .ok text) :
    text.all (·.toNat < 128) = true ∧ call.run toInt = (do
      let lines ← request text call.replyLines
      raiseIn (call.read toInt lines)) := by
  rw [run_eq]
  rcases call.command_spec with ⟨e, -, hcmd⟩ | ⟨t, htext, hcmd⟩
  · rw [h] at hcmd
    cases hcmd
  · by_cases hascii : t.all (·.toNat < 128) = true
    · rw [if_pos hascii, h, Except.ok.injEq] at hcmd
      subst hcmd
      exact ⟨hascii, by rw [htext]; rfl⟩
    · rw [if_neg hascii, h] at hcmd
      cases hcmd

/-- A call whose command cannot be written raises and leaves the connection alone. -/
theorem run_of_unsent {call : Call} {e : PyExc} (h : call.command = .error e) {c : RigctldClient}
    (hsock : c.sock = true) : call.run toInt c = .error e c := by
  rw [run_eq]
  rcases call.command_spec with ⟨e', htext, hcmd⟩ | ⟨t, htext, hcmd⟩
  · rw [h, Except.error.injEq] at hcmd
    rw [htext, hcmd]
    rfl
  · by_cases hascii : t.all (·.toNat < 128) = true
    · rw [if_pos hascii, h] at hcmd
      cases hcmd
    · rw [if_neg hascii, h, Except.error.injEq] at hcmd
      have hreq : request t call.replyLines c = .error e c := by
        simp only [request, encodeAscii, bind, EStateM.bind, get, getThe, MonadStateOf.get,
          get_eq_ok, hsock, hascii, hcmd]
        rfl
      rw [htext, raiseIn_ok, pure_bind]
      exact bind_of_error hreq

end Call

/-! ## Replies -/

/-- What the server answers a command: its values, or a report with a code. -/
inductive Reply
  | values (lines : List (List UInt8))
  | report (code : Str)

def asciiBytes (s : Str) : List UInt8 := s.map fun ch => UInt8.ofNat ch.toNat

def reportText (code : Str) : Str := "RPRT ".toList ++ code

def Reply.lines : Reply → List (List UInt8)
  | .values lines => lines
  | .report code => [asciiBytes (reportText code)]

/-- A code: one word of ASCII characters, such as `0` or `-11`. -/
def IsCode (code : Str) : Prop := code ≠ [] ∧ ∀ ch ∈ code, isSpace ch = false ∧ ch.toNat < 128

/-- A call that asks for values may get them; any call may get a report. -/
def Fits (call : Call) : Reply → Prop
  | .values lines => 0 < call.valueLines ∧ lines.length = call.valueLines ∧
      ∀ line ∈ lines, IsValue line
  | .report code => IsCode code

/-- What a call makes of the reply to its command. -/
def Call.answer (call : Call) (text : Str) : Reply → Except PyExc Value
  | .values lines => call.read toInt (lines.map lineText)
  | .report code => if code = ['0'] then call.read toInt [] else .error (rejected text code)

theorem decodeAscii_asciiBytes {s : Str} (h : ∀ ch ∈ s, ch.toNat < 128) :
    decodeAscii (asciiBytes s) = s := by
  induction s with
  | nil => rfl
  | cons ch s ih =>
    have hch : ch.toNat < 128 := h ch List.mem_cons_self
    have hbyte : (UInt8.ofNat ch.toNat).toNat = ch.toNat := by
      simp only [UInt8.toNat_ofNat']
      omega
    have htail := ih fun d hd => h d (List.mem_cons_of_mem ch hd)
    simp only [decodeAscii, asciiBytes, List.map_cons, hbyte, hch, ite_true, Char.ofNat_toNat]
    exact congrArg (ch :: ·) htail

section report

variable {code : Str} (h : IsCode code)

include h

theorem lineText_report : lineText (asciiBytes (reportText code)) = reportText code := by
  have hascii : ∀ ch ∈ reportText code, ch.toNat < 128 := by
    intro ch hch
    rcases List.mem_append.mp hch with hch | hch
    · have hkeyword : ∀ ch ∈ "RPRT ".toList, ch.toNat < 128 :=
        List.all_iff_forall_prop.mp (by decide)
      exact hkeyword ch hch
    · exact (h.2 ch hch).2
  have hlast : ∃ front ch, code = front ++ [ch] ∧ isSpace ch = false := by
    rcases List.eq_nil_or_concat code with hnil | ⟨front, ch, hcode⟩
    · exact absurd hnil h.1
    · rw [List.concat_eq_append] at hcode
      exact ⟨front, ch, hcode, (h.2 ch (by rw [hcode]; simp)).1⟩
  obtain ⟨front, ch, hcode, hch⟩ := hlast
  have hfront : lstrip (reportText code) = reportText code := rfl
  rw [lineText, decodeAscii_asciiBytes hascii, strip, hfront, reportText, hcode, ← List.append_assoc]
  exact rstrip_of_last hch

omit h in
theorem isReport_report : isReport (reportText code) = true := rfl

theorem reportCode_report : reportCode (reportText code) = code := by
  have hword := splitFrom_of_word fun ch hch => (h.2 ch hch).1
  have hblank : splitFrom (' ' :: code) = ([], [code]) := by
    have hspace : isSpace ' ' = true := by decide
    simp [splitFrom, hword, h.1, hspace]
  have hsplit : splitSpaces (reportText code) = ["RPRT".toList, code] := by
    have hreport : splitFrom (reportText code) = ("RPRT".toList, [code]) := by
      have hletters : isSpace 'R' = false ∧ isSpace 'P' = false ∧ isSpace 'T' = false := by decide
      change splitFrom ('R' :: 'P' :: 'R' :: 'T' :: ' ' :: code) = _
      rw [splitFrom, splitFrom, splitFrom, splitFrom, hblank]
      simp [hletters]
    rw [splitSpaces, hreport]
    rfl
  rw [reportCode, hsplit]
  rfl

theorem newline_not_mem_report : 10 ∉ asciiBytes (reportText code) := by
  intro hmem
  obtain ⟨ch, hch, hten⟩ := List.mem_map.mp hmem
  rcases List.mem_append.mp hch with hch | hch
  · have hkeyword : ∀ ch ∈ "RPRT ".toList, UInt8.ofNat ch.toNat ≠ 10 :=
      List.all_iff_forall_prop.mp (by decide)
    exact hkeyword ch hch hten
  · have hcode := h.2 ch hch
    have hten' : ch.toNat = 10 := by
      have hnat := congrArg UInt8.toNat hten
      simp only [UInt8.toNat_ofNat'] at hnat
      have h10 : (10 : UInt8).toNat = 10 := rfl
      omega
    have hspace : isSpace ch = true := by simp [isSpace, hten']
    rw [hspace] at hcode
    exact absurd hcode.1 (by decide)

end report

/-! ## Conversations -/

/-- One call of a conversation; there is no reply to a command that is not written. -/
structure Entry where
  call : Call
  reply : Option Reply
  outcome : Except PyExc Value

/-- The conversations over one connection, with the client they leave. The server answers
each command when it comes, and what is unread may be cut into chunks anew. -/
inductive Served : List Entry → RigctldClient → Prop
  | connected {c : RigctldClient} (hsock : c.sock = true) (hbuf : c.buf = [])
      (hrecvs : c.recvs = []) : Served [] c
  | answered {log : List Entry} {c : RigctldClient} {call : Call} {text : Str} {reply : Reply}
      {chunks : List (List UInt8)} (h : Served log c) (hcommand : call.command = .ok text)
      (hline : '\n' ∉ text) (hfits : Fits call reply) (hne : ∀ chunk ∈ chunks, chunk ≠ [])
      (hcut : chunks.flatten = received c.recvs ++ wire reply.lines) :
      Served (log ++ [⟨call, some reply, outcome (call.run toInt) (c.offered chunks)⟩])
        (endState (call.run toInt) (c.offered chunks))
  | unsent {log : List Entry} {c : RigctldClient} {call : Call} {e : PyExc} (h : Served log c)
      (hcommand : call.command = .error e) :
      Served (log ++ [⟨call, none, outcome (call.run toInt) c⟩]) (endState (call.run toInt) c)

/-- The call is answered from the reply to its own command. -/
def Entry.Aligned (entry : Entry) : Prop :=
  match entry.reply with
  | none => ∃ e, entry.call.command = .error e ∧ entry.outcome = .error e
  | some reply => ∃ text, entry.call.command = .ok text ∧
      entry.outcome = entry.call.answer toInt text reply

/-- Between calls: connected, and nothing is left to read. -/
structure Settled (c : RigctldClient) : Prop where
  sock : c.sock = true
  unread : unread c = []

theorem Settled.buf {c : RigctldClient} (h : Settled c) : c.buf = [] :=
  (List.append_eq_nil_iff.mp h.unread).1

theorem raiseIn_outcome {α : Type} (r : Except PyExc α) (c : RigctldClient) :
    outcome (raiseIn r) c = r ∧ endState (raiseIn r) c = c := by
  cases r <;> exact ⟨rfl, rfl⟩

/-- A written command consumes its reply and leaves nothing. -/
theorem answered_step {c : RigctldClient} (hc : Settled c) {call : Call} {text : Str}
    (hcommand : call.command = .ok text) {reply : Reply} (hfits : Fits call reply)
    {chunks : List (List UInt8)} (hne : ∀ chunk ∈ chunks, chunk ≠ [])
    (hcut : chunks.flatten = received c.recvs ++ wire reply.lines) :
    outcome (call.run toInt) (c.offered chunks) = call.answer toInt text reply ∧
      Settled (endState (call.run toInt) (c.offered chunks)) := by
  obtain ⟨hascii, hrun⟩ := Call.run_of_command toInt hcommand
  have hask := request_of_offered hc.sock hascii chunks call.replyLines
  have hopen : (wrote text (c.offered chunks)).sock = true := hc.sock
  have hquiet := List.append_eq_nil_iff.mp hc.unread
  have hstream : unread (wrote text (c.offered chunks)) = wire reply.lines := by
    change c.buf ++ received (chunks.map .chunk) = _
    rw [received_chunks hne, hcut, hquiet.1, hquiet.2]
    rfl
  cases reply with
  | values lines =>
    obtain ⟨hpos, hlen, hvalues⟩ := hfits
    have hcount : call.replyLines = lines.length := by
      rw [Call.replyLines, hlen]
      omega
    obtain ⟨buf, recvs, hloop, hleft⟩ := replyLoop_values text hvalues hopen
      (hstream.trans (List.append_nil _).symm) []
    rw [hcount, hloop] at hask
    have hstep : call.run toInt (c.offered chunks) =
        raiseIn (call.read toInt (lines.map lineText))
          ((wrote text (c.offered chunks)).withInput buf recvs) := by
      rw [hrun, hcount, bind_of_ok hask]
      rfl
    have hread := raiseIn_outcome (call.read toInt (lines.map lineText))
      ((wrote text (c.offered chunks)).withInput buf recvs)
    rw [outcome, endState, hstep, ← outcome, ← endState, hread.1, hread.2]
    exact ⟨rfl, hc.sock, hleft⟩
  | report code =>
    have hcount : ∃ n, call.replyLines = n + 1 :=
      ⟨call.replyLines - 1, by rw [Call.replyLines]; omega⟩
    obtain ⟨n, hn⟩ := hcount
    have hline : unread (wrote text (c.offered chunks)) =
        asciiBytes (reportText code) ++ 10 :: [] := by
      rw [hstream]
      simp [wire, Reply.lines]
    have hreport : isReport (lineText (asciiBytes (reportText code))) = true := by
      rw [lineText_report hfits]
      exact isReport_report
    obtain ⟨buf, recvs, hloop, hleft⟩ :=
      replyLoop_report text (newline_not_mem_report hfits) hreport hopen hline n
    rw [lineText_report hfits, reportCode_report hfits] at hloop
    rw [hn, hloop] at hask
    by_cases hzero : code = ['0']
    · rw [if_pos hzero] at hask
      have hstep : call.run toInt (c.offered chunks) = raiseIn (call.read toInt [])
          ((wrote text (c.offered chunks)).withInput buf recvs) := by
        rw [hrun, hn, bind_of_ok hask]
      have hread := raiseIn_outcome (call.read toInt [])
        ((wrote text (c.offered chunks)).withInput buf recvs)
      rw [outcome, endState, hstep, ← outcome, ← endState, hread.1, hread.2]
      exact ⟨(if_pos hzero).symm, hc.sock, hleft⟩
    · rw [if_neg hzero] at hask
      have hstep : call.run toInt (c.offered chunks) = .error (rejected text code)
          ((wrote text (c.offered chunks)).withInput buf recvs) := by
        rw [hrun, hn, bind_of_error hask]
      rw [outcome, endState, hstep]
      exact ⟨(if_neg hzero).symm, hc.sock, hleft⟩

/-- Every call of a conversation is answered from its own reply, and between calls the
buffer is empty. -/
theorem served_aligned {log : List Entry} {c : RigctldClient} (h : Served toInt log c) :
    (∀ entry ∈ log, entry.Aligned toInt) ∧ c.buf = [] := by
  suffices hall : (∀ entry ∈ log, entry.Aligned toInt) ∧ Settled c from ⟨hall.1, hall.2.buf⟩
  induction h with
  | connected hsock hbuf hrecvs =>
      refine ⟨by simp, hsock, ?_⟩
      rw [unread, hbuf, hrecvs]
      rfl
  | answered h hcommand _ hfits hne hcut ih =>
      have hstep := answered_step toInt ih.2 hcommand hfits hne hcut
      refine ⟨?_, hstep.2⟩
      intro entry hentry
      rcases List.mem_append.mp hentry with hold | hnew
      · exact ih.1 entry hold
      · rw [List.mem_singleton] at hnew
        subst hnew
        exact ⟨_, hcommand, hstep.1⟩
  | unsent h hcommand ih =>
      have hrun := Call.run_of_unsent toInt hcommand ih.2.sock
      rw [outcome, endState_of_error hrun, hrun]
      refine ⟨?_, ih.2⟩
      intro entry hentry
      rcases List.mem_append.mp hentry with hold | hnew
      · exact ih.1 entry hold
      · rw [List.mem_singleton] at hnew
        subst hnew
        exact ⟨_, hcommand, rfl⟩

/-- A client that has just connected. -/
def openClient : RigctldClient where
  host := "127.0.0.1".toList
  port := 4532
  sock := true
  connects := []
  sends := []
  recvs := []
  closes := []

/-- The client behind a change of the mode that the rig rejects. -/
def refusedClient : RigctldClient :=
  endState ((Call.setMode "CW".toList 500).run (pyInt .ascii))
    (openClient.offered [asciiBytes "RP".toList, asciiBytes "RT -1\n".toList])

/-- The mode, cut in the middle of its lines. -/
def cutMode : List (List UInt8) :=
  [asciiBytes "US".toList, asciiBytes "B\n24".toList, asciiBytes "00\n".toList]

theorem refusedClient_mode_aligned :
    ∃ log c, Served (pyInt .ascii) log c ∧
      log.map Entry.outcome = [.error (rejected "M CW 500".toList "-1".toList),
        .ok (.mode "USB".toList 2400)] ∧
      (∀ entry ∈ log, entry.Aligned (pyInt .ascii)) ∧ c.buf = [] := by
  have hset : (Call.setMode "CW".toList 500).command = .ok "M CW 500".toList := by decide +kernel
  have hreport : Fits (.setMode "CW".toList 500) (.report "-1".toList) :=
    ⟨by decide, List.all_iff_forall_prop.mp (by decide)⟩
  have hmode : Call.getMode.command = .ok "m".toList := by decide
  have hlines : Fits .getMode (.values [asciiBytes "USB".toList, asciiBytes "2400".toList]) := by
    have hvalues : ∀ line ∈ [asciiBytes "USB".toList, asciiBytes "2400".toList],
        10 ∉ line ∧ isReport (lineText line) = false := by decide
    exact ⟨by decide, rfl, hvalues⟩
  have hfirst : Served (pyInt .ascii) _ refusedClient :=
    .answered (.connected rfl rfl rfl) hset (by decide) hreport (by decide) (by decide)
  have hcut : cutMode.flatten = received refusedClient.recvs ++
      wire (Reply.values [asciiBytes "USB".toList, asciiBytes "2400".toList]).lines := by
    decide +kernel
  have htalk := Served.answered hfirst hmode (by decide) hlines (by decide) hcut
  exact ⟨_, _, htalk, by decide +kernel, served_aligned (pyInt .ascii) htalk⟩

/-- A mode line that hides a report behind a blank, a second command in a mode, and a report
of success in place of a value. -/
theorem openClient_misaligned :
    (¬ "RPRT".toList <+: " RPRT 0".toList ∧
      (endState (Call.getMode.run (pyInt .ascii))
        (openClient.offered [asciiBytes " RPRT 0\n500\n".toList])).buf =
          asciiBytes "500\n".toList) ∧
    (endState ((Call.setMode "CW\nt".toList 0).run (pyInt .ascii))
      (openClient.offered [asciiBytes "RPRT 0\n0\n".toList])).buf = asciiBytes "0\n".toList ∧
    outcome (Call.getFreq.run (pyInt .ascii))
      (openClient.offered [asciiBytes "RPRT 0\n".toList]) = .error .listIndex := by
  refine ⟨⟨by decide, by decide +kernel⟩, by decide +kernel, by decide +kernel⟩

end CwStation.RigctldClient
