import CwStation.Model.Transmit
import CwStation.Verification.Rigctl.Replies

/-! # The key of the transmitter

What a transmission writes to the rig, and when the key it presses is released. -/

namespace CwStation

open Effects

/-! ## Client calls of the worker -/

namespace Station

open RigctldClient

theorem onClient_of_ok {α : Type} {x : Rigctl α} {s : Station} {a : α} {c : RigctldClient}
    (h : x s.client = .ok a c) : onClient x s = .ok a { s with client := c } := by
  simp only [onClient, zoom, h]

theorem onClient_of_error {α : Type} {x : Rigctl α} {s : Station} {e : PyExc} {c : RigctldClient}
    (h : x s.client = .error e c) : onClient x s = .error e { s with client := c } := by
  simp only [onClient, zoom, h]

theorem connect_spec (c : RigctldClient) :
    (c.connects.headD (some timedOut) = none ∧ ∃ c', connect c = .ok () c' ∧ c'.sock = true ∧
      c'.acts = c.acts ++ [.connect] ∧ c'.sends = c.sends ∧ replies c' = replies c) ∨
    (c.connects.headD (some timedOut) ≠ none ∧ ∃ e c', connect c = .error e c' ∧
      c'.acts = c.acts ++ [.connect]) := by
  cases h : c.connects.headD (some timedOut) with
  | none =>
    refine .inl ⟨rfl, ?_⟩
    simp only [connect, h]
    exact ⟨_, rfl, rfl, rfl, rfl, rfl⟩
  | some msg =>
    refine .inr ⟨by simp, ?_⟩
    simp only [connect, h]
    exact ⟨_, _, rfl, rfl⟩

def keyDown : Str := "T 1".toList
def keyUp : Str := "T 0".toList

/-- The rig says that it is not keyed. -/
def ReadsUnkeyed (line : Str) : Prop := isReport line = false ∧ strip line ≠ ['1']

theorem getPtt_spec {c : RigctldClient} (hsock : c.sock = true) :
    (∃ line buf recvs, nextSend c.sends = .sent ∧ ReadsUnkeyed line ∧
      replies c = line :: replies ((wrote "t".toList c).withInput buf recvs) ∧
      getPtt c = .ok false ((wrote "t".toList c).withInput buf recvs)) ∨
    (¬ (nextSend c.sends = .sent ∧ ∃ line, (replies c).head? = some line ∧ ReadsUnkeyed line) ∧
      ∃ buf recvs, getPtt c = .ok true ((wrote "t".toList c).withInput buf recvs) ∨
        ∃ e, getPtt c = .error e ((wrote "t".toList c).withInput buf recvs)) := by
  have hascii : "t".toList.all (·.toNat < 128) = true := by decide
  rcases request_spec hsock hascii with ⟨line, lines, buf, recvs, hsend, hreplies, hans, hok⟩ |
    ⟨hno, e, buf, recvs, hfail⟩
  · have hhead : (replies c).head? = some line := by rw [hreplies]; rfl
    by_cases hrep : isReport line = true
    · have hlines : lines = [] := by
        unfold answer at hans
        rw [if_pos hrep] at hans
        split at hans
        · exact (Option.some.inj hans).symm
        · cases hans
      subst hlines
      refine .inr ⟨?_, buf, recvs, .inr ⟨.listIndex, by rw [getPtt, bind_of_ok hok]; rfl⟩⟩
      rintro ⟨-, line', hline', hunkeyed⟩
      rw [hhead] at hline'
      obtain rfl := Option.some.inj hline'
      simp [hunkeyed.1] at hrep
    · have hlines : lines = [line] := by
        unfold answer at hans
        rw [if_neg hrep] at hans
        exact (Option.some.inj hans).symm
      subst hlines
      by_cases hone : strip line = ['1']
      · refine .inr ⟨?_, buf, recvs, .inl ?_⟩
        · rintro ⟨-, line', hline', hunkeyed⟩
          rw [hhead] at hline'
          obtain rfl := Option.some.inj hline'
          exact hunkeyed.2 hone
        · rw [getPtt, bind_of_ok hok]
          simp only [hone, decide_true]
          rfl
      · refine .inl ⟨line, buf, recvs, hsend, ⟨by simpa using hrep, hone⟩, hreplies, ?_⟩
        rw [getPtt, bind_of_ok hok]
        simp only [hone, decide_false]
        rfl
  · refine .inr ⟨?_, buf, recvs, .inr ⟨e, ?_⟩⟩
    · rintro ⟨hsend, line, hline, hunkeyed⟩
      exact hno ⟨hsend, line, [line], hline, by simp [answer, hunkeyed.1]⟩
    · rw [getPtt, bind_of_error hfail]

/-- The next write succeeds, and the next reply line is accepted. -/
def Accepted (sends : List SendOutcome) (lines : List Str) : Prop :=
  nextSend sends = .sent ∧ ∃ line, lines.head? = some line ∧ (answer line).isSome = true

def pttCommand (on : Bool) : Str := if on then keyDown else keyUp

theorem setPtt_spec {c : RigctldClient} (hsock : c.sock = true) (on : Bool) :
    ∃ buf recvs,
      (Accepted c.sends (replies c) ∧
        setPtt on c = .ok () ((wrote (pttCommand on) c).withInput buf recvs)) ∨
      (¬ Accepted c.sends (replies c) ∧
        ∃ e, setPtt on c = .error e ((wrote (pttCommand on) c).withInput buf recvs)) := by
  have hascii : (pttCommand on).all (·.toNat < 128) = true := by cases on <;> decide
  rcases request_spec hsock hascii with ⟨line, lines, buf, recvs, hsend, hreplies, hans, hok⟩ |
    ⟨hno, e, buf, recvs, hfail⟩
  · refine ⟨buf, recvs, .inl ⟨⟨hsend, line, by rw [hreplies]; rfl, by simp [hans]⟩, ?_⟩⟩
    rw [setPtt]
    exact bind_of_ok hok
  · refine ⟨buf, recvs, .inr ⟨?_, e, ?_⟩⟩
    · rintro ⟨hsend, line, hline, hsome⟩
      obtain ⟨lines, hans⟩ := Option.isSome_iff_exists.mp hsome
      exact hno ⟨hsend, line, lines, hline, hans⟩
    · rw [setPtt]
      exact bind_of_error hfail

/-! ## The body of the worker -/

/-- The worker gets as far as the key-down command. -/
def Asked (rig : CWRig) (c : RigctldClient) : Prop :=
  rig.usePtt = true ∧ c.connects.headD (some timedOut) = none ∧ nextSend c.sends = .sent ∧
    ∃ line, (replies c).head? = some line ∧ ReadsUnkeyed line

/-- The key-down command is written and acknowledged. -/
def Answered (c : RigctldClient) : Prop := Accepted c.sends.tail (replies c).tail

variable {A : Type} {rig : CWRig} {session : CWSession A}
  {player : A → ℕ → Str → Except PyExc Unit}

/-- Playback is followed by one key-up command, whatever the player does. -/
theorem playback_acts (audio : A) (rate : ℕ) {s : Station} (hsock : s.client.sock = true) :
    (endState (playback rig player audio rate) s).client.acts = s.client.acts ++
      (.play :: if rig.usePtt then [.send keyUp (nextWritten s.client.sends keyUp)] else []) := by
  rw [playback, endState_tryFinally]
  have hplay : endState (do
      act .play
      raiseFrom (player audio rate rig.audioOutput)) s =
      { s with client := { s.client with acts := s.client.acts ++ [.play] } } := by
    cases player audio rate rig.audioOutput <;> rfl
  rw [hplay]
  cases rig.usePtt with
  | false => rfl
  | true =>
    generalize hs : ({ s with client := { s.client with acts := s.client.acts ++ [.play] } } :
      Station) = s'
    have hopen : s'.client.sock = true := by rw [← hs]; exact hsock
    have hacts : s'.client.acts = s.client.acts ++ [.play] := by rw [← hs]
    have hsends : s'.client.sends = s.client.sends := by rw [← hs]
    obtain ⟨buf, recvs, ⟨-, hok⟩ | ⟨-, e, hfail⟩⟩ := setPtt_spec hopen false
    · simp [endState_of_ok (onClient_of_ok hok), wrote, withInput, pttCommand, hacts, hsends]
    · simp [endState_of_error (onClient_of_error hfail), wrote, withInput, pttCommand, hacts,
        hsends]

/-- The rig answers that it is not keyed. -/
def Idle (c : RigctldClient) : Prop :=
  nextSend c.sends = .sent ∧ ∃ line, (replies c).head? = some line ∧ ReadsUnkeyed line

theorem pressKey_spec {s : Station} (hsock : s.client.sock = true) :
    (¬ Idle s.client ∧ ∃ e s' n, pressKey rig s = .error e s' ∧
      s'.client.acts = s.client.acts ++ [.send "t".toList n]) ∨
    (Idle s.client ∧ ¬ Answered s.client ∧ ∃ e s', pressKey rig s = .error e s' ∧
      s'.client.acts = s.client.acts ++ [.send "t".toList 2,
        .send keyDown (nextWritten s.client.sends.tail keyDown)]) ∨
    (Idle s.client ∧ Answered s.client ∧ ∃ s', pressKey rig s = .ok () s' ∧
      s'.client.sock = true ∧ s'.client.acts = s.client.acts ++ [.send "t".toList 2,
        .send keyDown 4, .sleep rig.pttLeadMs]) := by
  rcases getPtt_spec hsock with ⟨line, buf, recvs, hsend, hunkeyed, hreplies, hok⟩ |
    ⟨hbusy, buf, recvs, hok | ⟨e, hfail⟩⟩
  · have hidle : Idle s.client := ⟨hsend, line, by rw [hreplies]; rfl, hunkeyed⟩
    have hwritten : nextWritten s.client.sends "t".toList = 2 := by simp [nextWritten, hsend]
    have hanswered : Answered s.client ↔ Accepted s.client.sends.tail
        (replies ((wrote "t".toList s.client).withInput buf recvs)) := by
      rw [Answered, hreplies]
      rfl
    have hrun : pressKey rig s = (onClient (setPtt true) >>= fun _ => act (.sleep rig.pttLeadMs))
        { s with client := (wrote "t".toList s.client).withInput buf recvs } := by
      rw [pressKey, bind_of_ok (onClient_of_ok hok)]
      rfl
    have hopen : ((wrote "t".toList s.client).withInput buf recvs).sock = true := hsock
    obtain ⟨buf', recvs', ⟨hacc, hset⟩ | ⟨hacc, e, hset⟩⟩ := setPtt_spec hopen true
    · have hfour : nextWritten s.client.sends.tail keyDown = 4 := by
        have hsent : nextSend s.client.sends.tail = .sent := hacc.1
        simp [nextWritten, hsent, keyDown]
      refine .inr (.inr ⟨hidle, hanswered.mpr hacc, ?_⟩)
      rw [hrun, bind_of_ok (onClient_of_ok hset)]
      refine ⟨_, rfl, hsock, ?_⟩
      simp only [wrote, withInput, pttCommand, ite_true, hwritten, hfour, List.append_assoc,
        List.cons_append, List.nil_append]
    · refine .inr (.inl ⟨hidle, fun h => hacc (hanswered.mp h), e, ?_⟩)
      rw [hrun, bind_of_error (onClient_of_error hset)]
      refine ⟨_, rfl, ?_⟩
      simp only [wrote, withInput, pttCommand, ite_true, hwritten, List.append_assoc,
        List.cons_append, List.nil_append]
  · refine .inl ⟨hbusy, ?_⟩
    rw [pressKey, bind_of_ok (onClient_of_ok hok)]
    exact ⟨_, _, _, rfl, rfl⟩
  · refine .inl ⟨hbusy, ?_⟩
    rw [pressKey, bind_of_error (onClient_of_error hfail)]
    exact ⟨_, _, _, rfl, rfl⟩

variable (rig player)

/-- What the body does to the rig: it stops before the key-down command, or the command is
not acknowledged and nothing follows, or it is and the key-up command follows playback. -/
theorem keyAndPlay_acts (audio : A) (rate : ℕ) (s : Station) :
    ∃ acts, (endState (keyAndPlay rig player audio rate) s).client.acts = s.client.acts ++ acts ∧
      ((¬ Asked rig s.client ∧ ∀ command n, .send command n ∈ acts → command = "t".toList) ∨
      (Asked rig s.client ∧ ¬ Answered s.client ∧ acts = [.connect, .send "t".toList 2,
        .send keyDown (nextWritten s.client.sends.tail keyDown)]) ∨
      (Asked rig s.client ∧ Answered s.client ∧ ∃ n, acts = [.connect, .send "t".toList 2,
        .send keyDown 4, .sleep rig.pttLeadMs, .play, .send keyUp n])) := by
  rcases connect_spec s.client with ⟨hconn, c, hok, hopen, hacts, hsends, hreplies⟩ |
    ⟨hconn, e, c, hfail, hacts⟩
  · have hidle : Idle c ↔ Idle s.client := by simp only [Idle, hsends, hreplies]
    have hanswered : Answered c ↔ Answered s.client := by simp only [Answered, hsends, hreplies]
    cases hptt : rig.usePtt with
    | false =>
      have hrun : keyAndPlay rig player audio rate s =
          playback rig player audio rate { s with client := c } := by
        rw [keyAndPlay, bind_of_ok (onClient_of_ok hok), hptt]
        rfl
      refine ⟨[.connect, .play], ?_, .inl ⟨by simp [Asked, hptt], by simp⟩⟩
      rw [endState, hrun, ← endState, playback_acts audio rate hopen, hptt, hacts]
      simp
    | true =>
      have hasked : Asked rig s.client ↔ Idle c := by
        rw [hidle]
        simp only [Asked, hptt, hconn, true_and, Idle]
      have hrun : keyAndPlay rig player audio rate s =
          (pressKey rig >>= fun _ => playback rig player audio rate) { s with client := c } := by
        rw [keyAndPlay, bind_of_ok (onClient_of_ok hok), hptt]
        rfl
      rw [endState, hrun, ← endState, hasked, ← hanswered, ← hsends]
      rcases pressKey_spec (s := { s with client := c }) hopen with
        ⟨hbusy, e, s', n, hkey, hs'⟩ | ⟨hquiet, hno, e, s', hkey, hs'⟩ |
        ⟨hquiet, hyes, s', hkey, hopen', hs'⟩
      · refine ⟨[.connect, .send "t".toList n], ?_, .inl ⟨hbusy, by simp⟩⟩
        rw [endState_of_error (bind_of_error hkey), hs', hacts]
        simp
      · refine ⟨_, ?_, .inr (.inl ⟨hquiet, hno, rfl⟩)⟩
        rw [endState_of_error (bind_of_error hkey), hs', hacts]
        simp
      · refine ⟨_, ?_, .inr (.inr ⟨hquiet, hyes, nextWritten s'.client.sends keyUp, rfl⟩)⟩
        rw [endState, bind_of_ok hkey, ← endState, playback_acts audio rate hopen', hs', hacts,
          hptt]
        simp
  · refine ⟨[.connect], ?_, .inl ⟨fun h => hconn h.2.1, by simp⟩⟩
    rw [keyAndPlay, endState_of_error (bind_of_error (onClient_of_error hfail)), hacts]

/-! ## The whole run -/

theorem tearDown_acts (s : Station) :
    ∃ acts, (endState tearDown s).client.acts = s.client.acts ++ acts ∧
      ∀ a ∈ acts, a = .close ∨ a = .release := by
  cases hsock : s.client.sock with
  | false =>
    refine ⟨[.release], ?_, by simp⟩
    have hclose : close s.client = .ok () s.client := by simp [close, hsock]
    rw [tearDown, endState, bind_of_ok (onClient_of_ok hclose)]
    rfl
  | true =>
    cases hout : s.client.closes.headD none with
    | none =>
      refine ⟨[.close, .release], ?_, by simp⟩
      have hclose : ∃ c, close s.client = .ok () c ∧ c.acts = s.client.acts ++ [.close] := by
        simp only [close, hsock, ite_true, hout]
        exact ⟨_, rfl, rfl⟩
      obtain ⟨c, hok, hacts⟩ := hclose
      rw [tearDown, endState, bind_of_ok (onClient_of_ok hok)]
      change c.acts ++ [.release] = _
      simp [hacts]
    | some msg =>
      refine ⟨[.close], ?_, by simp⟩
      have hclose : ∃ e c, close s.client = .error e c ∧ c.acts = s.client.acts ++ [.close] := by
        simp only [close, hsock, ite_true, hout]
        exact ⟨_, _, rfl, rfl⟩
      obtain ⟨e, c, hfail, hacts⟩ := hclose
      rw [tearDown, endState_of_error (bind_of_error (onClient_of_error hfail)), hacts]

theorem recordError_client (e : PyExc) (s : Station) :
    (endState (recordError e) s).client = s.client := by
  unfold recordError
  split <;> rfl

variable (session)

theorem worker_acts (audio : A) (rate : ℕ) (s : Station) :
    ∃ acts, (endState (worker rig session player audio rate) s).client.acts =
      (endState (keyAndPlay rig player audio rate) { s with
        tx := { transmitting := true, sessionId := some session.pk, error := "" }
        client := newClient rig s.client }).client.acts ++ acts ∧
      ∀ a ∈ acts, a = .close ∨ a = .release := by
  generalize hs : ({ s with
    tx := { transmitting := true, sessionId := some session.pk, error := "" }
    client := newClient rig s.client } : Station) = s'
  have hrun : endState (worker rig session player audio rate) s = endState tearDown
      (endState (tryCatch (keyAndPlay rig player audio rate) recordError) s') := by
    rw [← endState_tryFinally, ← hs]
    rfl
  have hbody : (endState (tryCatch (keyAndPlay rig player audio rate) recordError) s').client =
      (endState (keyAndPlay rig player audio rate) s').client := by
    rw [endState_tryCatch, endState]
    cases keyAndPlay rig player audio rate s' with
    | ok _ _ => rfl
    | error e s'' => exact recordError_client e s''
  rw [hrun, ← hbody]
  exact tearDown_acts _

/-- The call gets to start its worker. -/
def Starts (session : CWSession A) (place : Worker) (s : Station) : Prop :=
  session.hasAudio = true ∧ s.lock = false ∧ session.audioFloat.isOk = true ∧
    (place = .blocking ∨ place = .thread (.ok ()))

/-- What a call of `transmit_session` and its worker do, in order. -/
def txActs (rig : CWRig) (session : CWSession A) (player : A → ℕ → Str → Except PyExc Unit)
    (place : Worker) (s : Station) : List Act :=
  (endState (transmitSession rig session player place)
    { s with client := { s.client with acts := [] } }).client.acts

theorem transmitSession_eq (place : Worker) (s : Station) :
    transmitSession rig session player place s =
      if session.hasAudio then
        if s.lock then
          .error (.rigError "Already transmitting — one message at a time.") s
        else match session.audioFloat with
          | .error e => .error e { s with lock := true }
          | .ok (audio, rate) =>
            launch place (worker rig session player audio rate) { s with lock := true }
      else
        .error (.rigError "This session's audio can't be regenerated (uploaded recording).") s := by
  obtain ⟨lock, tx, client⟩ := s
  unfold transmitSession
  cases session.hasAudio with
  | false => rfl
  | true =>
    cases lock with
    | true => rfl
    | false => cases session.audioFloat <;> rfl

variable {session} in
theorem txActs_of_starts {place : Worker} {s : Station} (h : Starts session place s) :
    ∃ audio rate, txActs rig session player place s =
      (endState (worker rig session player audio rate) { s with
        lock := true, client := { s.client with acts := [] } }).client.acts := by
  obtain ⟨haudio, hlock, hfloat, hplace⟩ := h
  cases hf : session.audioFloat with
  | error e => simp [hf, Except.isOk, Except.toBool] at hfloat
  | ok value =>
    obtain ⟨audio, rate⟩ := value
    refine ⟨audio, rate, ?_⟩
    rw [txActs, endState, transmitSession_eq]
    simp only [haudio, ite_true, hlock, Bool.false_eq_true, ite_false, hf]
    rcases hplace with rfl | rfl <;> rfl

variable {session} in
theorem txActs_of_not_starts {place : Worker} {s : Station} (h : ¬ Starts session place s) :
    txActs rig session player place s = [] := by
  rw [txActs, endState, transmitSession_eq]
  cases haudio : session.hasAudio with
  | false => rfl
  | true =>
    cases hlock : s.lock with
    | true => rfl
    | false =>
      cases hf : session.audioFloat with
      | error e => rfl
      | ok value =>
        -- only a thread that does not start is left
        cases place with
        | blocking => exact absurd ⟨haudio, hlock, by rw [hf]; rfl, .inl rfl⟩ h
        | thread start =>
          cases start with
          | ok _ => exact absurd ⟨haudio, hlock, by rw [hf]; rfl, .inr rfl⟩ h
          | error e => rfl

/-! ## Safety -/

/-- A key-down command that is written whole is followed by an attempt to write the key-up
command before the lock is released, and a key-up command comes only in a run with a
key-down command. -/
structure PttSafe (acts : List Act) : Prop where
  released : ∀ n later, 4 ≤ n → (.send keyDown n :: later) <:+ acts →
    ∃ before m rest, later = before ++ .send keyUp m :: rest ∧ Act.release ∉ before
  own : ∀ n, .send keyUp n ∈ acts → ∃ m, 4 ≤ m ∧ .send keyDown m ∈ acts

/-- The key-down command leaves the station whole and is not acknowledged: its write fails
behind the last byte, no reply line comes, or the rig rejects it. -/
def KeyDownLost (rig : CWRig) (c : RigctldClient) : Prop :=
  Asked rig c ∧ 4 ≤ nextWritten c.sends.tail keyDown ∧ ¬ Answered c

theorem pttSafe_of_unkeyed {acts : List Act}
    (h : ∀ command n, .send command n ∈ acts → command = "t".toList) : PttSafe acts := by
  refine ⟨?_, ?_⟩
  · intro n later _ hsuffix
    exact absurd (h keyDown n (hsuffix.subset List.mem_cons_self)) (by decide)
  · intro n hmem
    exact absurd (h keyUp n hmem) (by decide)

/-- Behind a key-down command that nothing answers only the connection is closed. -/
theorem pttSafe_unanswered_iff {n : ℕ} {after : List Act}
    (hafter : ∀ a ∈ after, a = .close ∨ a = .release) :
    PttSafe ([.connect, .send "t".toList 2, .send keyDown n] ++ after) ↔ ¬ 4 ≤ n := by
  have hsend : ∀ command m, .send command m ∉ after := by
    intro command m hmem
    rcases hafter _ hmem with h | h <;> cases h
  constructor
  · intro h hn
    obtain ⟨before, m, rest, hlater, -⟩ :=
      h.released n after hn ⟨[.connect, .send "t".toList 2], rfl⟩
    exact hsend keyUp m (by rw [hlater]; simp)
  · intro hn
    refine ⟨?_, ?_⟩
    · intro m later hm hsuffix
      have hmem : Act.send keyDown m ∈ [.connect, .send "t".toList 2, .send keyDown n] ++ after :=
        hsuffix.subset List.mem_cons_self
      have hkey : keyDown ≠ "t".toList := by decide
      simp only [List.cons_append, List.nil_append, List.mem_cons, reduceCtorEq, false_or,
        Act.send.injEq, hkey, false_and, true_and, hsend, or_false] at hmem
      omega
    · intro m hmem
      have hup : keyUp ≠ "t".toList := by decide
      have hdown : keyUp ≠ keyDown := by decide
      simp only [List.cons_append, List.nil_append, List.mem_cons, reduceCtorEq,
        Act.send.injEq, hup, hdown, false_and, hsend, or_false] at hmem

theorem pttSafe_answered {ms n : ℕ} {after : List Act}
    (hafter : ∀ a ∈ after, a = .close ∨ a = .release) :
    PttSafe ([.connect, .send "t".toList 2, .send keyDown 4, .sleep ms, .play, .send keyUp n] ++
      after) := by
  have hsend : ∀ command m, .send command m ∉ after := by
    intro command m hmem
    rcases hafter _ hmem with h | h <;> cases h
  refine ⟨?_, fun m _ => ⟨4, le_refl 4, by simp⟩⟩
  intro m later _ hsuffix
  have hkey : keyDown ≠ "t".toList := by decide
  have hup : keyDown ≠ keyUp := by decide
  have hlast : ¬ (Act.send keyDown m :: later) <:+ after :=
    fun h => hsend keyDown m (h.subset List.mem_cons_self)
  simp only [List.cons_append, List.nil_append, List.suffix_cons_iff, List.cons.injEq,
    reduceCtorEq, Act.send.injEq, hkey, hup, false_and, false_or, hlast, or_false, true_and] at hsuffix
  exact ⟨[.sleep ms, .play], n, after, hsuffix.2, by simp⟩

/-- A transmission is safe unless its key-down command is written and not acknowledged. -/
theorem transmit_pttSafe_iff (rig : CWRig) (session : CWSession A)
    (player : A → ℕ → Str → Except PyExc Unit) (place : Worker) (s : Station) :
    PttSafe (txActs rig session player place s) ↔
      ¬ (Starts session place s ∧ KeyDownLost rig (newClient rig s.client)) := by
  by_cases hstarts : Starts session place s
  · obtain ⟨audio, rate, hacts⟩ := txActs_of_starts rig player hstarts
    obtain ⟨after, hworker, hafter⟩ := worker_acts rig session player audio rate
      { s with lock := true, client := { s.client with acts := [] } }
    rw [hacts, hworker]
    obtain ⟨acts, hbody, hcases⟩ := keyAndPlay_acts rig player audio rate { s with
      lock := true
      tx := { transmitting := true, sessionId := some session.pk, error := "" }
      client := newClient rig { s.client with acts := [] } }
    have hstart : (newClient rig { s.client with acts := [] }).acts = [] := rfl
    rw [hbody, hstart, List.nil_append]
    have hlost : (Starts session place s ∧ KeyDownLost rig (newClient rig s.client)) ↔
        KeyDownLost rig (newClient rig { s.client with acts := [] }) := and_iff_right hstarts
    rw [hlost]
    rcases hcases with ⟨hasked, hsends⟩ | ⟨hasked, hanswered, rfl⟩ | ⟨hasked, hanswered, n, rfl⟩
    · refine iff_of_true (pttSafe_of_unkeyed ?_) fun h => hasked h.1
      intro command n hmem
      rcases List.mem_append.mp hmem with hmem | hmem
      · exact hsends command n hmem
      · rcases hafter _ hmem with h | h <;> cases h
    · rw [pttSafe_unanswered_iff hafter]
      exact not_congr ⟨fun h => ⟨hasked, h, hanswered⟩, fun h => h.2.1⟩
    · exact iff_of_true (pttSafe_answered hafter) fun h => h.2.2 hanswered
  · rw [txActs_of_not_starts rig player hstarts]
    exact iff_of_true ⟨by simp, by simp⟩ fun h => hstarts h.1

/-- A rig that answers `t` and then falls silent. -/
def silentStation : Station where
  lock := false
  tx := {}
  client := {
    host := "127.0.0.1".toList, port := 4532
    connects := [none], sends := [.sent, .sent]
    recvs := [.chunk [48, 10]], closes := [] }

theorem silentStation_left_keyed : ¬ PttSafe (txActs
    { host := "127.0.0.1".toList, port := 4532, usePtt := true, audioOutput := [], pttLeadMs := 150 }
    { pk := 1, source := .synth, audioFloat := .ok ((), 8000) } (fun _ _ _ => .ok ())
    .blocking silentStation) := by
  have hacts : txActs
      { host := "127.0.0.1".toList, port := 4532, usePtt := true, audioOutput := [], pttLeadMs := 150 }
      { pk := 1, source := .synth, audioFloat := .ok ((), 8000) } (fun _ _ _ => .ok ())
      .blocking silentStation =
      [.connect, .send "t".toList 2, .send keyDown 4] ++ [.close, .release] := by decide
  rw [hacts, pttSafe_unanswered_iff (by simp)]
  decide

end Station

end CwStation
