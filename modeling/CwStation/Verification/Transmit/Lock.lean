import CwStation.Verification.Transmit.Ptt

/-! # The lock of the transmitter

`transmit_session` takes the lock and the worker's `finally` gives it back. Three exits lie
outside that `finally`. -/

namespace CwStation.Station

open Effects RigctldClient

variable {A : Type} (rig : CWRig) (session : CWSession A)
  (player : A → ℕ → Str → Except PyExc Unit)

/-- No transmission is under way. -/
structure Free (s : Station) : Prop where
  lock : s.lock = false
  transmitting : s.tx.transmitting = false
  sessionId : s.tx.sessionId = none

/-! ## The connection at the end of the body -/

/-- The worker holds the lock, its connection is open, and the outcomes of closing it are
still `closes`. -/
structure Connected (closes : List (Option String)) (s : Station) : Prop where
  lock : s.lock = true
  sock : s.client.sock = true
  closes_eq : s.client.closes = closes

variable {closes : List (Option String)}

theorem keeps_connected_onClient {α : Type} {x : Rigctl α}
    (h : ∀ c, c.sock = true → (endState x c).sock = true ∧ (endState x c).closes = c.closes) :
    Keeps (Connected closes) (onClient x) := by
  intro s hs
  rw [onClient, endState_zoom]
  have hx := h s.client hs.sock
  exact ⟨hs.lock, hx.1, hx.2.trans hs.closes_eq⟩

theorem keeps_connected_act (a : Act) : Keeps (Connected closes) (act a) := by
  apply keeps_connected_onClient
  intro c hsock
  exact ⟨hsock, rfl⟩

theorem keeps_connected_raiseFrom {α : Type} (r : Except PyExc α) :
    Keeps (Connected closes) (raiseFrom r) := by
  intro s hs
  cases r <;> exact hs

theorem keeps_connected_setPtt (on : Bool) :
    Keeps (Connected closes) (onClient (setPtt on)) := by
  apply keeps_connected_onClient
  intro c hsock
  obtain ⟨buf, recvs, ⟨-, hok⟩ | ⟨-, e, hfail⟩⟩ := setPtt_spec hsock on
  · rw [endState_of_ok hok]
    exact ⟨hsock, rfl⟩
  · rw [endState_of_error hfail]
    exact ⟨hsock, rfl⟩

theorem keeps_connected_getPtt : Keeps (Connected closes) (onClient getPtt) := by
  apply keeps_connected_onClient
  intro c hsock
  rcases getPtt_spec hsock with ⟨line, buf, recvs, -, -, -, hok⟩ | ⟨-, buf, recvs, hok | ⟨e, hfail⟩⟩
  · rw [endState_of_ok hok]
    exact ⟨hsock, rfl⟩
  · rw [endState_of_ok hok]
    exact ⟨hsock, rfl⟩
  · rw [endState_of_error hfail]
    exact ⟨hsock, rfl⟩

theorem keeps_connected_pressKey : Keeps (Connected closes) (pressKey rig) := by
  apply keeps_connected_getPtt.bind
  intro keyed
  cases keyed with
  | true => exact fun s hs => hs
  | false =>
    apply (keeps_connected_setPtt true).bind
    intro _
    exact keeps_connected_act _

theorem keeps_connected_playback (audio : A) (rate : ℕ) :
    Keeps (Connected closes) (playback rig player audio rate) := by
  apply Keeps.tryFinally
  · apply (keeps_connected_act .play).bind
    intro _
    exact keeps_connected_raiseFrom _
  · cases rig.usePtt with
    | false => exact fun s hs => hs
    | true => exact keeps_connected_setPtt false

/-- The body leaves the connection open if it made one, and no connection else. -/
theorem keyAndPlay_connection (audio : A) (rate : ℕ) {s : Station} (hlock : s.lock = true)
    (hsock : s.client.sock = false) :
    (endState (keyAndPlay rig player audio rate) s).lock = true ∧
    (endState (keyAndPlay rig player audio rate) s).client.sock =
      (s.client.connects.headD (some timedOut)).isNone ∧
    (endState (keyAndPlay rig player audio rate) s).client.closes = s.client.closes := by
  cases hconn : s.client.connects.headD (some timedOut) with
  | some msg =>
    have hfail : ∃ e c, connect s.client = .error e c ∧ c.sock = s.client.sock ∧
        c.closes = s.client.closes := by
      simp only [connect, hconn]
      exact ⟨_, _, rfl, rfl, rfl⟩
    obtain ⟨e, c, hfail, hclosed, hcloses⟩ := hfail
    rw [keyAndPlay, endState_of_error (bind_of_error (onClient_of_error hfail))]
    exact ⟨hlock, hclosed.trans hsock, hcloses⟩
  | none =>
    have hok : ∃ c, connect s.client = .ok () c ∧ c.sock = true ∧
        c.closes = s.client.closes := by
      simp only [connect, hconn]
      exact ⟨_, rfl, rfl, rfl⟩
    obtain ⟨c, hok, hopen, hcloses⟩ := hok
    have hkeeps : Keeps (Connected s.client.closes) (do
        if rig.usePtt then pressKey rig
        playback rig player audio rate) := by
      cases rig.usePtt with
      | false => exact keeps_connected_playback rig player audio rate
      | true =>
        apply (keeps_connected_pressKey rig).bind
        intro _
        exact keeps_connected_playback rig player audio rate
    have hend := hkeeps { s with client := c } ⟨hlock, hopen, hcloses⟩
    rw [keyAndPlay, endState, bind_of_ok (onClient_of_ok hok), ← endState]
    exact ⟨hend.lock, hend.sock, hend.closes_eq⟩

/-! ## The end of the worker -/

/-- The `finally` block frees the transmitter unless closing the connection raises. -/
theorem tearDown_free_iff {s : Station} (hlock : s.lock = true) :
    Free (endState tearDown s) ↔
      ¬ (s.client.sock = true ∧ s.client.closes.headD none ≠ none) := by
  cases hsock : s.client.sock with
  | false =>
    have hclose : close s.client = .ok () s.client := by simp [close, hsock]
    rw [tearDown, endState, bind_of_ok (onClient_of_ok hclose)]
    exact iff_of_true ⟨rfl, rfl, rfl⟩ (by simp)
  | true =>
    cases hout : s.client.closes.headD none with
    | none =>
      have hclose : ∃ c, close s.client = .ok () c := by
        simp only [close, hsock, ite_true, hout]
        exact ⟨_, rfl⟩
      obtain ⟨c, hok⟩ := hclose
      rw [tearDown, endState, bind_of_ok (onClient_of_ok hok)]
      exact iff_of_true ⟨rfl, rfl, rfl⟩ (by simp)
    | some msg =>
      have hclose : ∃ e c, close s.client = .error e c := by
        simp only [close, hsock, ite_true, hout]
        exact ⟨_, _, rfl⟩
      obtain ⟨e, c, hfail⟩ := hclose
      rw [tearDown, endState_of_error (bind_of_error (onClient_of_error hfail))]
      refine iff_of_false ?_ (by simp)
      intro h
      have hfreed : s.lock = false := h.lock
      rw [hlock] at hfreed
      cases hfreed

theorem recordError_lock (e : PyExc) (s : Station) :
    (endState (recordError e) s).lock = s.lock := by
  unfold recordError
  split <;> rfl

/-- A connection is made, and closing it raises. -/
def CloseFails (c : RigctldClient) : Prop :=
  c.connects.headD (some timedOut) = none ∧ c.closes.headD none ≠ none

theorem worker_free_iff (audio : A) (rate : ℕ) {s : Station} (hlock : s.lock = true) :
    Free (endState (worker rig session player audio rate) s) ↔ ¬ CloseFails s.client := by
  generalize hs : ({ s with
    tx := { transmitting := true, sessionId := some session.pk, error := "" }
    client := newClient rig s.client } : Station) = s'
  have hrun : endState (worker rig session player audio rate) s = endState tearDown
      (endState (tryCatch (keyAndPlay rig player audio rate) recordError) s') := by
    rw [← endState_tryFinally, ← hs]
    rfl
  have hbody : (endState (tryCatch (keyAndPlay rig player audio rate) recordError) s').client =
        (endState (keyAndPlay rig player audio rate) s').client ∧
      (endState (tryCatch (keyAndPlay rig player audio rate) recordError) s').lock =
        (endState (keyAndPlay rig player audio rate) s').lock := by
    rw [endState_tryCatch, endState]
    cases keyAndPlay rig player audio rate s' with
    | ok _ _ => exact ⟨rfl, rfl⟩
    | error e s'' => exact ⟨recordError_client e s'', recordError_lock e s''⟩
  have hlock' : s'.lock = true := by rw [← hs]; exact hlock
  have hsock' : s'.client.sock = false := by rw [← hs]; rfl
  have hconn := keyAndPlay_connection rig player audio rate hlock' hsock'
  rw [hrun, tearDown_free_iff (hbody.2.trans hconn.1), hbody.1, hconn.2.1, hconn.2.2, ← hs]
  simp only [Option.isNone_iff_eq_none]
  rfl

/-! ## The whole call -/

/-- The exits that keep the lock: regenerating the audio raises, the worker's thread does not
start, or closing the worker's connection raises. -/
def Wedges (session : CWSession A) (place : Worker) (c : RigctldClient) : Prop :=
  session.hasAudio = true ∧
    (session.audioFloat.isOk = false ∨ (∃ e, place = .thread (.error e)) ∨ CloseFails c)

/-- A call goes past the lock: what it does is not the refusal of a busy transmitter. -/
def Admits (s : Station) : Prop :=
  ∀ (rig : CWRig) (session : CWSession A) (player : A → ℕ → Str → Except PyExc Unit)
    (place : Worker), session.hasAudio = true →
    transmitSession rig session player place s =
      (raiseFrom session.audioFloat >>= fun (audio, rate) =>
        launch place (worker rig session player audio rate)) { s with lock := true }

theorem admits_of_free {s : Station} (h : Free s) : Admits (A := A) s := by
  intro rig session player place haudio
  rw [transmitSession_eq]
  simp only [haudio, ite_true, h.lock, Bool.false_eq_true, ite_false]
  cases session.audioFloat <;> rfl

theorem transmitSession_free_iff {s : Station} {place : Worker} (hs : Free s)
    (haudio : session.hasAudio = true) :
    Free (endState (transmitSession rig session player place) s) ↔
      ¬ Wedges session place s.client := by
  have hheld : ∀ s' : Station, s'.lock = true → ¬ Free s' := by
    intro s' hlock hfree
    rw [hfree.lock] at hlock
    cases hlock
  cases hf : session.audioFloat with
  | error e =>
    have hend : endState (transmitSession rig session player place) s =
        { s with lock := true } := by
      rw [endState, transmitSession_eq]
      simp [haudio, hs.lock, hf]
    rw [hend]
    refine iff_of_false (hheld _ rfl) fun h => h ⟨haudio, .inl ?_⟩
    rw [hf]
    rfl
  | ok value =>
    obtain ⟨audio, rate⟩ := value
    have hend : endState (transmitSession rig session player place) s =
        endState (launch place (worker rig session player audio rate)) { s with lock := true } := by
      rw [endState, transmitSession_eq]
      simp only [haudio, ite_true, hs.lock, Bool.false_eq_true, ite_false, hf]
      rfl
    have hok : ¬ session.audioFloat.isOk = false := by
      rw [hf]
      exact Bool.noConfusion
    rw [hend]
    -- a worker that runs frees the lock, one that never runs cannot
    have hworker : Free (endState (worker rig session player audio rate) { s with lock := true }) ↔
        ¬ CloseFails s.client := worker_free_iff rig session player audio rate rfl
    cases place with
    | blocking => simpa [Wedges, haudio, hok, launch] using hworker
    | thread start =>
      cases start with
      | error e =>
        refine iff_of_false (hheld _ rfl) fun h => h ⟨haudio, .inr (.inl ⟨e, rfl⟩)⟩
      | ok _ =>
        have hrun : endState (launch (.thread (.ok ()))
            (worker rig session player audio rate)) { s with lock := true } =
            endState (worker rig session player audio rate) { s with lock := true } := rfl
        rw [hrun]
        simpa [Wedges, haudio, hok] using hworker

/-- From a free transmitter, a call and its worker leave it free, ready for the next call,
exactly when none of the exits outside the worker's clean-up is taken. -/
theorem transmit_free_iff (place : Worker) (s : Station) (hs : Free s) :
    (Free (endState (transmitSession rig session player place) s) ∧
      Admits (A := A) (endState (transmitSession rig session player place) s)) ↔
      ¬ Wedges session place s.client := by
  have hfree : Free (endState (transmitSession rig session player place) s) ↔
      ¬ Wedges session place s.client := by
    cases haudio : session.hasAudio with
    | true => exact transmitSession_free_iff rig session player hs haudio
    | false =>
        have hend : endState (transmitSession rig session player place) s = s := by
          rw [endState, transmitSession_eq]
          simp [haudio]
        rw [hend]
        refine iff_of_true hs ?_
        rintro ⟨hyes, -⟩
        rw [haudio] at hyes
        cases hyes
  rw [← hfree]
  exact and_iff_left_of_imp admits_of_free

def monoRig : CWRig where
  host := "127.0.0.1".toList
  port := 4532
  usePtt := true
  audioOutput := []
  pttLeadMs := 150

theorem silentStation_freed_by_worker :
    Free silentStation ∧
    (Free (endState (transmitSession monoRig
        { pk := 1, source := .synth, audioFloat := .ok ((), 8000) } (fun _ _ _ => .ok ())
        .blocking) silentStation) ∧
      Admits (A := Unit) (endState (transmitSession monoRig
        { pk := 1, source := .synth, audioFloat := .ok ((), 8000) } (fun _ _ _ => .ok ())
        .blocking) silentStation)) := by
  have hfree : Free silentStation := ⟨rfl, rfl, rfl⟩
  refine ⟨hfree, (transmit_free_iff monoRig _ _ .blocking silentStation hfree).mpr ?_⟩
  rintro ⟨-, haudio | ⟨e, hplace⟩ | ⟨-, hclose⟩⟩
  · cases haudio
  · cases hplace
  · exact hclose rfl

/-- A session whose audio cannot be allocated. -/
theorem silentStation_wedged_by_audio :
    ¬ Free (endState (transmitSession (A := Unit) monoRig
      { pk := 1, source := .synth, audioFloat := .error ⟨.other, "Unable to allocate the array"⟩ }
      (fun _ _ _ => .ok ()) .blocking) silentStation) := by
  intro h
  exact absurd h.lock (by decide)

end CwStation.Station
