import CwStation.Verification.Radio.Steps

/-! # A seek that finds nothing

While no receiver dies by itself, every step of a seek has one outcome, which the script and
the receivers decide: surveys, the pidfile and the log have no part in it. -/

namespace CwStation.Radio

open Effects

variable {F S : Type} {r b : Radio F S}

/-! ## What decides the outcome -/

/-- What the outcome of an operation depends on while nothing dies by itself. -/
def bench (r : Radio F S) : Radio F S where
  live := r.live
  spawned := r.spawned
  proc := r.proc
  freqMhz := r.freqMhz
  tools := r.tools
  spawns := r.spawns
  threads := r.threads
  sinks := r.sinks
  sweeps := r.sweeps

/-- No receiver will die by itself. -/
def Stable (r : Radio F S) : Prop := ∀ events ∈ r.events, ∀ id, .dies id ∉ events

/-- The outcome will be as from `b`. -/
structure At (b r : Radio F S) : Prop where
  stable : Stable r
  bench : r.bench = b

theorem foldl_happen_bench (events : List (Event S)) (hno : ∀ id, .dies id ∉ events)
    (r : Radio F S) : (events.foldl happen r).bench = r.bench ∧
      (events.foldl happen r).events = r.events := by
  induction events generalizing r with
  | nil => exact ⟨rfl, rfl⟩
  | cons e events ih =>
    have htail := ih (fun id hid => hno id (List.mem_cons_of_mem _ hid)) (r.happen e)
    cases e with
    | dies id => exact absurd (List.mem_cons_self) (hno id)
    | survey label => exact htail

theorem At.pass (h : At b r) : At b r.pass := by
  have hno : ∀ id, .dies id ∉ r.events.headD [] := by
    intro id hid
    cases hevents : r.events with
    | nil => simp [hevents] at hid
    | cons events rest =>
      rw [hevents] at hid
      exact h.stable events (by simp [hevents]) id hid
  have hfold := foldl_happen_bench (r.events.headD []) hno { r with events := r.events.tail }
  refine ⟨?_, hfold.1.trans h.bench⟩
  intro events hmem
  rw [Radio.pass, hfold.2] at hmem
  exact h.stable events (List.mem_of_mem_tail hmem)

/-! ## Steps -/

theorem observe_returns {α : Type} (f : Radio F S → α) (hf : ∀ r, f r = f r.bench) :
    Returns (At b) (observe f) (f b) (At b) := by
  intro r h
  refine ⟨r.pass, ?_, h.pass⟩
  rw [observe, hf r.pass, h.pass.bench]

theorem change_returns {b' : Radio F S} (f : Radio F S → Radio F S)
    (hbench : ∀ r, r.bench = b → (f r).bench = b') (hevents : ∀ r, (f r).events = r.events) :
    Returns (At b) (change f) () (At b') := by
  intro r h
  refine ⟨_, rfl, ?_, hbench r.pass h.pass.bench⟩
  intro events hmem
  rw [record, hevents] at hmem
  exact h.pass.stable events hmem

theorem whichRtlFm_returns :
    Returns (At b) whichRtlFm (b.tools.headD true) (At { b with tools := b.tools.tail }) := by
  intro r h
  obtain ⟨hstable, rfl⟩ := h.pass
  exact ⟨_, rfl, hstable, rfl⟩

theorem rtlPower_returns :
    Returns (At b) rtlPower (b.sweeps.headD .missing) (At { b with sweeps := b.sweeps.tail }) := by
  intro r h
  obtain ⟨hstable, rfl⟩ := h.pass
  exact ⟨_, rfl, hstable, rfl⟩

theorem awaitSink_returns :
    Returns (At b) awaitSink (b.sinks.headD none) (At { b with sinks := b.sinks.tail }) := by
  intro r h
  obtain ⟨hstable, rfl⟩ := h.pass
  exact ⟨_, rfl, hstable, rfl⟩

theorem startThreads_returns (hthreads : b.threads.headD none = none) :
    Returns (At b) startThreads () (At { b with threads := b.threads.tail }) := by
  intro r h
  obtain ⟨hstable, rfl⟩ := h.pass
  have hnone : r.pass.threads.headD none = none := hthreads
  simp only [startThreads, hnone]
  exact ⟨_, rfl, hstable, rfl⟩

theorem startThreads_raises {msg : String} (hthreads : b.threads.headD none = some msg) :
    Raises (At b) startThreads ⟨.other, msg⟩ (At { b with threads := b.threads.tail }) := by
  intro r h
  obtain ⟨hstable, rfl⟩ := h.pass
  have hsome : r.pass.threads.headD none = some msg := hthreads
  simp only [startThreads, hsome]
  exact ⟨_, rfl, hstable, rfl⟩

/-! ## Reaping and stopping -/

/-- No receiver is alive, and there is none to supervise. -/
def halted (b : Radio F S) : Radio F S := { b with live := [], proc := none, freqMhz := none }

theorem killStale_returns (pid : ℤ) (hlive : b.live = []) :
    Returns (At b) (killStale pid) () (At b) := by
  have hnot : isRtlFm pid b = false := by rw [isRtlFm, hlive, List.any_nil]
  unfold killStale
  by_cases hpos : 0 < pid
  · simp only [hpos, ite_true]
    refine (observe_returns (isRtlFm pid) fun _ => rfl).bind ?_
    rw [hnot]
    exact returns_pure
  · simp only [hpos, ite_false]
    exact returns_pure

/-- With no receiver alive reaping is about the pidfile only. -/
theorem reapStale_returns (hlive : b.live = []) : Returns (At b) reapStale () (At b) := by
  intro r h
  unfold reapStale
  have hunlink : Returns (At b) unlinkPidfile () (At b) :=
    change_returns _ (fun _ h => h) fun _ => rfl
  have hrest : ∀ pid : ℤ, Returns (At b) (do killStale pid; unlinkPidfile) () (At b) :=
    fun pid => (killStale_returns pid hlive).bind hunlink
  have hfile : observe Radio.pidfile r = .ok r.pass.pidfile r.pass := rfl
  rw [bind_of_ok hfile]
  cases r.pass.pidfile with
  | none => exact ⟨_, rfl, h.pass⟩
  | some pid =>
    refine ((observe_returns (supervises pid) fun _ => rfl).bind ?_) r.pass h.pass
    cases supervises pid b with
    | true => exact returns_pure
    | false => exact hrest pid

theorem clearState_returns (hlive : b.live = []) :
    Returns (At b) clearState () (At b.halted) := by
  apply change_returns
  · intro r h
    subst h
    have hnone : r.live = [] := hlive
    simp only [halted, bench, hnone]
  · exact fun _ => rfl

theorem stopLocked_returns {c : Child F} (hlive : b.live = [c]) (hproc : b.proc = some c) :
    Returns (At b) stopLocked () (At b.halted) := by
  have hrun : b.running = true := by simp [running, hproc, alive, hlive]
  have hobserve : Returns (At b) (observe running) true (At b) := by
    have h := observe_returns (b := b) running fun _ => rfl
    rwa [hrun] at h
  have hkill : Returns (At b) killProc () (At { b with live := [] }) := by
    apply change_returns
    · intro r h
      subst h
      have hsupervised : r.proc = some c := hproc
      have halone : r.live = [c] := hlive
      simp only [hsupervised, removeChild, bench, halone]
      simp
    · intro r
      cases r.proc <;> rfl
  have hclear : Returns (At { b with live := [] }) clearState () (At b.halted) :=
    clearState_returns rfl
  unfold stopLocked
  exact hobserve.bind (hobserve.bind (hkill.bind (hclear.bind (reapStale_returns rfl))))

/-! ## Starting -/

/-- The bench behind the spawning of `child`. -/
def playing (b : Radio F S) (child : Child F) : Radio F S := { b with
  spawns := b.spawns.tail
  live := [child]
  spawned := b.spawned + 1
  proc := some child
  freqMhz := some child.freq }

section popen

variable {freq : F} {device : ℕ} {gain : Option F} {directSampling : Bool}

theorem popen_raises {msg : String}
    (hspawn : b.spawns.headD (.failed "no such file") = .failed msg) :
    Raises (At b) (popen freq device gain directSampling) (.radio ("Couldn't start rtl_fm: " ++ msg))
      (At { b with spawns := b.spawns.tail }) := by
  intro r h
  obtain ⟨hstable, rfl⟩ := h.pass
  have hfailed : r.pass.spawns.headD (.failed "no such file") = .failed msg := hspawn
  simp only [popen, hfailed]
  exact ⟨_, rfl, hstable, rfl⟩

theorem popen_returns {pid : ℕ+} (hlive : b.live = [])
    (hspawn : b.spawns.headD (.failed "no such file") = .started pid) :
    Returns (At b) (popen freq device gain directSampling)
      ⟨b.spawned, pid, freq, device, gain, directSampling⟩
      (At (b.playing ⟨b.spawned, pid, freq, device, gain, directSampling⟩)) := by
  intro r h
  obtain ⟨hstable, rfl⟩ := h.pass
  have hstarted : r.pass.spawns.headD (.failed "no such file") = .started pid := hspawn
  have hnone : r.pass.live = [] := hlive
  simp only [popen, hstarted]
  refine ⟨_, rfl, hstable, ?_⟩
  simp only [record, playing, bench, hnone, List.nil_append]

end popen

section settle

variable {g : F → String} {freq : F} {child : Child F} (hlive : b.live = [child])

theorem writePidfile_returns :
    Returns (At b) (change fun r => { r with pidfile := some child.pid }) () (At b) :=
  change_returns _ (fun _ h => h) fun _ => rfl

theorem settle_threadsFail {msg : String} (hthreads : b.threads.headD none = some msg) :
    Raises (At b) (settle g freq child) ⟨.other, msg⟩ (At { b with threads := b.threads.tail }) :=
  writePidfile_returns.bind_raises ((startThreads_raises hthreads).bind _)

include hlive in
theorem alive_returns : Returns (At b) (observe (alive child)) true (At b) := by
  have h := observe_returns (b := b) (alive child) fun _ => rfl
  have hup : alive child b = true := by simp [alive, hlive]
  rwa [hup] at h

include hlive in
theorem settle_returns (hthreads : b.threads.headD none = none) (hsink : b.sinks.headD none = none) :
    Returns (At b) (settle g freq child) ()
      (At { b with threads := b.threads.tail, sinks := b.sinks.tail }) := by
  refine writePidfile_returns.bind ((startThreads_returns hthreads).bind ?_)
  refine (alive_returns (b := { b with threads := b.threads.tail }) hlive).bind ?_
  have h := awaitSink_returns (b := { b with threads := b.threads.tail })
  rw [hsink] at h
  exact h.bind returns_pure

include hlive in
theorem settle_sinkFails {error : String} (hproc : b.proc = some child)
    (hthreads : b.threads.headD none = none) (hsink : b.sinks.headD none = some error) :
    Raises (At b) (settle g freq child) (.radio ("Tuned " ++ g freq ++
        " MHz, but there's no audio out — " ++
        if error = "" then "the audio device wouldn't open" else error))
      (At (halted { b with threads := b.threads.tail, sinks := b.sinks.tail })) := by
  refine writePidfile_returns.bind_raises ((startThreads_returns hthreads).bind_raises ?_)
  refine (alive_returns (b := { b with threads := b.threads.tail }) hlive).bind_raises ?_
  have h := awaitSink_returns (b := { b with threads := b.threads.tail })
  rw [hsink] at h
  refine h.bind_raises ?_
  exact (stopLocked_returns (b := { b with threads := b.threads.tail, sinks := b.sinks.tail })
    hlive hproc).bind_raises raises_throw

end settle

section startLocked

variable {g : F → String} {freq : F} {device : ℤ} {gain : Option F} {directSampling : Bool}

theorem startLocked_badDevice (hdevice : device < 0) :
    Raises (At b) (startLocked g freq (.ok device) gain directSampling)
      (.radio ("Not a device index: " ++ toString device)) (At b) := by
  intro r h
  refine ⟨r, ?_, h⟩
  simp only [startLocked, raiseIn, pure_bind, hdevice, ite_true]
  rfl

theorem startLocked_noTool (hdevice : 0 ≤ device) (htool : b.tools.headD true = false) :
    Raises (At b) (startLocked g freq (.ok device) gain directSampling)
      (.radio "The rtl-sdr tools aren't installed (brew install librtlsdr).")
      (At { b with tools := b.tools.tail }) := by
  have h := whichRtlFm_returns (b := b)
  rw [htool] at h
  simp only [startLocked, raiseIn, pure_bind, not_lt.mpr hdevice, ite_false]
  exact h.bind_raises (raises_throw.bind _)

/-- With no receiver alive a start comes to spawn one. -/
theorem startLocked_spawns (hdevice : 0 ≤ device) (htool : b.tools.headD true = true)
    (hlive : b.live = []) (h : At b r) : ∃ r', At { b with tools := b.tools.tail } r' ∧
      startLocked g freq (.ok device) gain directSampling r =
        (do settle g freq (← popen freq device.toNat gain directSampling)) r' := by
  have hwhich := whichRtlFm_returns (b := b)
  rw [htool] at hwhich
  have hrun : Returns (At { b with tools := b.tools.tail }) (observe running) false
      (At { b with tools := b.tools.tail }) := by
    have hobserve := observe_returns (b := { b with tools := b.tools.tail }) running fun _ => rfl
    have hnot : running { b with tools := b.tools.tail } = false := by
      simp [running, alive, hlive]
    rwa [hnot] at hobserve
  obtain ⟨r₁, h₁, hat₁⟩ := hwhich r h
  obtain ⟨r₂, h₂, hat₂⟩ := reapStale_returns (b := { b with tools := b.tools.tail }) hlive r₁ hat₁
  obtain ⟨r₃, h₃, hat₃⟩ := hrun r₂ hat₂
  refine ⟨r₃, hat₃, ?_⟩
  simp only [startLocked, raiseIn, pure_bind, not_lt.mpr hdevice, ite_false]
  rw [bind_of_ok h₁]
  simp only [ite_true]
  rw [bind_of_ok h₂, bind_of_ok h₃]
  rfl

variable (hdevice : 0 ≤ device) (htool : b.tools.headD true = true) (hlive : b.live = [])

include hdevice htool hlive in
theorem startLocked_raises {e : PyExc} {b' : Radio F S}
    (h : Raises (At { b with tools := b.tools.tail })
      (do settle g freq (← popen freq device.toNat gain directSampling)) e (At b')) :
    Raises (At b) (startLocked g freq (.ok device) gain directSampling) e (At b') := by
  intro r hr
  obtain ⟨r', hat, hrun⟩ := startLocked_spawns hdevice htool hlive hr
  rw [hrun]
  exact h r' hat

include hdevice htool hlive in
theorem startLocked_returns {b' : Radio F S}
    (h : Returns (At { b with tools := b.tools.tail })
      (do settle g freq (← popen freq device.toNat gain directSampling)) () (At b')) :
    Returns (At b) (startLocked g freq (.ok device) gain directSampling) () (At b') := by
  intro r hr
  obtain ⟨r', hat, hrun⟩ := startLocked_spawns hdevice htool hlive hr
  rw [hrun]
  exact h r' hat

end startLocked

/-! ## Resuming -/

/-- The receiver plays `c`. -/
structure Plays (c : Child F) (r : Radio F S) : Prop where
  live : r.live = [c]
  proc : r.proc = some c
  freqMhz : r.freqMhz = some c.freq

/-- The receiver plays as `c` did. -/
def Resumed (c : Child F) (r : Radio F S) : Prop :=
  ∃ c', Plays c' r ∧ c'.freq = c.freq ∧ c'.device = c.device ∧ c'.gain = c.gain ∧
    c'.directSampling = c.directSampling

/-- Starting over ends with the receiver playing as `c` did, or not with a `RadioError`. -/
def CanResume (c : Child F) (device : ℤ) (r : Radio F S) : Prop :=
  0 ≤ device ∧ r.tools.headD true = true ∧
    ∃ pid, r.spawns.headD (.failed "no such file") = .started pid ∧
      (r.threads.headD none ≠ none ∨ r.sinks.headD none = none ∧
        device = c.device ∧ c.gain = none ∧ c.directSampling = false)

theorem not_resumed_of_silent {c : Child F} (hlive : b.live = []) : ¬Resumed c b := by
  rintro ⟨c', h, -⟩
  have hsome := h.live
  rw [hlive] at hsome
  cases hsome

theorem At.resumed_iff {c : Child F} (h : At b r) : Resumed c r ↔ Resumed c b := by
  obtain ⟨-, rfl⟩ := h
  constructor
  · rintro ⟨c', ⟨hlive, hproc, hfreq⟩, hsame⟩
    exact ⟨c', ⟨hlive, hproc, hfreq⟩, hsame⟩
  · rintro ⟨c', ⟨hlive, hproc, hfreq⟩, hsame⟩
    exact ⟨c', ⟨hlive, hproc, hfreq⟩, hsame⟩

/-- A receiver with the default settings plays as `c` did if `c` had them. -/
theorem resumed_default_iff {c : Child F} {id : ℕ} {pid : ℕ+} {device : ℤ} (hdevice : 0 ≤ device)
    (h : Plays ⟨id, pid, c.freq, device.toNat, none, false⟩ b) :
    Resumed c b ↔ device = c.device ∧ c.gain = none ∧ c.directSampling = false := by
  constructor
  · rintro ⟨c', hplays, -, hdev, hgain, hdirect⟩
    have hsame := hplays.live
    rw [h.live, List.cons.injEq] at hsame
    rw [← hsame.1] at hdev hgain hdirect
    simp only at hdev
    exact ⟨by omega, hgain.symm, hdirect.symm⟩
  · rintro ⟨hdev, hgain, hdirect⟩
    refine ⟨_, h, rfl, ?_, hgain.symm, hdirect.symm⟩
    simp only
    omega

/-- Starting the old station over, and the error of the seek behind it. -/
theorem resume_raises (g : F → String) (c : Child F) (device : ℤ) (msg : String)
    (hlive : b.live = []) :
    ∃ e b', Raises (At b) (do startLocked g c.freq (.ok device) none false; throw (.radio msg) : Rx F S F)
      e (At b') ∧ ((e.cls = .radioError → Resumed c b') ↔ CanResume c device b) := by
  by_cases hdevice : device < 0
  · refine ⟨_, b, (startLocked_badDevice hdevice).bind _, ?_⟩
    refine ⟨fun h => absurd (h rfl) (not_resumed_of_silent hlive), fun h => ?_⟩
    exact absurd h.1 (not_le.mpr hdevice)
  rw [not_lt] at hdevice
  cases htool : b.tools.headD true with
  | false =>
    refine ⟨_, _, (startLocked_noTool hdevice htool).bind _, ?_⟩
    refine ⟨fun h => absurd (h rfl) (not_resumed_of_silent hlive), fun h => ?_⟩
    rw [h.2.1] at htool
    cases htool
  | true =>
    cases hspawn : b.spawns.headD (.failed "no such file") with
    | failed msg =>
      refine ⟨_, _, (startLocked_raises hdevice htool hlive
        ((popen_raises (b := { b with tools := b.tools.tail }) hspawn).bind _)).bind _, ?_⟩
      refine ⟨fun h => absurd (h rfl) (not_resumed_of_silent hlive), fun h => ?_⟩
      obtain ⟨-, -, pid, hstarted, -⟩ := h
      rw [hstarted] at hspawn
      cases hspawn
    | started pid =>
      have hpopen : Returns (At { b with tools := b.tools.tail })
          (popen c.freq device.toNat none false)
          ⟨b.spawned, pid, c.freq, device.toNat, none, false⟩
          (At (playing { b with tools := b.tools.tail }
            ⟨b.spawned, pid, c.freq, device.toNat, none, false⟩)) :=
        popen_returns hlive hspawn
      cases hthreads : b.threads.headD none with
      | some why =>
        refine ⟨_, _, (startLocked_raises hdevice htool hlive
          (hpopen.bind_raises (settle_threadsFail hthreads))).bind _, ?_⟩
        refine ⟨fun _ => ?_, fun _ h => nomatch h⟩
        exact ⟨hdevice, htool, pid, hspawn, .inl fun hnone => nomatch hthreads.symm.trans hnone⟩
      | none =>
        cases hsink : b.sinks.headD none with
        | some error =>
          refine ⟨_, _, (startLocked_raises hdevice htool hlive
            (hpopen.bind_raises (settle_sinkFails rfl rfl hthreads hsink))).bind _, ?_⟩
          refine ⟨fun h => absurd (h rfl) (not_resumed_of_silent rfl), fun h => ?_⟩
          obtain ⟨-, -, -, -, hfail | ⟨hopen, -⟩⟩ := h
          · exact absurd hthreads hfail
          · rw [hopen] at hsink
            cases hsink
        | none =>
          have hstart := startLocked_returns (g := g) hdevice htool hlive
            (hpopen.bind (settle_returns rfl hthreads hsink))
          refine ⟨_, _, hstart.bind_raises raises_throw, ?_⟩
          have hsame := resumed_default_iff (c := c) hdevice
            (b := { playing { b with tools := b.tools.tail }
              ⟨b.spawned, pid, c.freq, device.toNat, none, false⟩ with
              threads := b.threads.tail, sinks := b.sinks.tail }) ⟨rfl, rfl, rfl⟩
          constructor
          · intro h
            exact ⟨hdevice, htool, pid, hspawn, .inr ⟨hsink, hsame.mp (h rfl)⟩⟩
          · rintro ⟨-, -, -, -, hfail | ⟨-, hdefault⟩⟩ -
            · exact absurd hthreads hfail
            · exact hsame.mpr hdefault

/-! ## Seeking -/

/-- The outcome of a run, where it is known, decides what its errors leave. -/
theorem raises_iff {α : Type} {x : Rx F S α} {e : PyExc} {b' : Radio F S} {c : Child F}
    (hx : Raises (At b) x e (At b')) (h : At b r) :
    (∀ e r', x r = .error e r' → e.cls = .radioError → Resumed c r') ↔
      (e.cls = .radioError → Resumed c b') := by
  obtain ⟨r', hrun, hat⟩ := hx r h
  constructor
  · intro hall hcls
    exact hat.resumed_iff.mp (hall e r' hrun hcls)
  · intro hone e₁ r₁ hrun₁ hcls
    rw [hrun] at hrun₁
    cases hrun₁
    exact hat.resumed_iff.mpr (hone hcls)

theorem no_error_of_returns {α : Type} {x : Rx F S α} {a : α} {Q : Radio F S → Prop} {c : Child F}
    (hx : Returns (At b) x a Q) (h : At b r) :
    ∀ e r', x r = .error e r' → e.cls = .radioError → Resumed c r' := by
  intro e r' hrun
  obtain ⟨r₁, hrun₁, -⟩ := hx r h
  rw [hrun₁] at hrun
  cases hrun

variable [PyFloat F] (g : F → String)

/-- The request is refused before the receiver is stopped, or the sweep leads to a station, or
the old one can be played again. An error that is not a `RadioError` promises nothing. -/
def Recovers (direction : Str) (fromMhz : FreqArg F) (device : Except PyExc ℤ) (c : Child F)
    (r : Radio F S) : Prop :=
  (direction = "up".toList ∨ direction = "down".toList) → ∀ current band,
    validateFreq g fromMhz = .ok current → bandFor current = some band →
      match chooseStation device direction current band (r.sweeps.headD .missing) with
      | .error e => e.cls ≠ .radioError
      | .ok (some _) => True
      | .ok none => ∀ index, device = .ok index → CanResume c index r

theorem device_of_chooseStation {device : Except PyExc ℤ} {direction : Str} {current : F}
    {band : RadioBand F} {power : PowerRun F} {target : Option F}
    (h : chooseStation device direction current band power = .ok target) :
    ∃ index, device = .ok index := by
  cases device with
  | ok index => exact ⟨index, rfl⟩
  | error e => cases power <;> cases h

/-- Up to the choice of a station a seek stops the receiver and sweeps the band. -/
theorem findNext_sweeps (device : Except PyExc ℤ) {direction : Str} {fromMhz : FreqArg F}
    {current : F} {band : RadioBand F} {c : Child F}
    (hdir : direction = "up".toList ∨ direction = "down".toList)
    (hfreq : validateFreq g fromMhz = .ok current) (hband : bandFor current = some band)
    (hplays : Plays c r) (hstable : Stable r) :
    ∃ r', At { r.bench.halted with sweeps := r.sweeps.tail } r' ∧
      findNext g direction fromMhz device r =
        (do
          match ← raiseIn (chooseStation device direction current band (r.sweeps.headD .missing)) with
          | some target => pure target
          | none =>
            startLocked g c.freq device none false
            throw (.radio "No strong station found — nothing above the noise.") : Rx F S F) r' := by
  have hwas : Returns (At r.bench) (observe fun r => if r.running then r.freqMhz else none)
      (some c.freq) (At r.bench) := by
    have h := observe_returns (b := r.bench) (fun r => if r.running then r.freqMhz else none)
      fun _ => rfl
    have hrun : r.bench.running = true := by
      change r.running = true
      simp [running, alive, hplays.proc, hplays.live]
    rw [hrun, if_pos rfl] at h
    have hfreq : r.bench.freqMhz = some c.freq := hplays.freqMhz
    rwa [hfreq] at h
  obtain ⟨r₁, h₁, hat₁⟩ := hwas r ⟨hstable, rfl⟩
  obtain ⟨r₂, h₂, hat₂⟩ := stopLocked_returns (b := r.bench) hplays.live hplays.proc r₁ hat₁
  obtain ⟨r₃, h₃, hat₃⟩ := rtlPower_returns r₂ hat₂
  refine ⟨r₃, hat₃, ?_⟩
  simp only [findNext, hdir, ite_true, hfreq, raiseIn, pure_bind, hband]
  rw [bind_of_ok h₁, bind_of_ok h₂, bind_of_ok h₃]
  rfl

/-- A seek over the playing receiver that raises a `RadioError` before it tunes a new station
leaves the receiver as it was exactly if it recovers. -/
theorem seek_resumes_iff (direction : Str) (fromMhz : FreqArg F) (device : Except PyExc ℤ)
    (c : Child F) (r : Radio F S) (hplays : Plays c r) (hstable : Stable r) :
    (∀ e r', findNext g direction fromMhz device r = .error e r' → e.cls = .radioError →
      Resumed c r') ↔ Recovers g direction fromMhz device c r := by
  have hself : Resumed c r := ⟨c, hplays, rfl, rfl, rfl, rfl⟩
  by_cases hdir : direction = "up".toList ∨ direction = "down".toList
  swap
  · -- refused at once
    refine ⟨fun _ h => absurd h hdir, fun _ e r' hrun _ => ?_⟩
    simp only [findNext, hdir, ite_false] at hrun
    cases hrun
    exact hself
  cases hfreq : validateFreq g fromMhz with
  | error e =>
      refine ⟨fun _ _ current band h => ?_, fun _ e r' hrun _ => ?_⟩
      · rw [hfreq] at h
        cases h
      · simp only [findNext, hdir, ite_true, hfreq] at hrun
        cases hrun
        exact hself
  | ok current =>
      cases hband : bandFor current with
      | none =>
          refine ⟨fun _ _ current' band h h' => ?_, fun _ e r' hrun _ => ?_⟩
          · rw [hfreq] at h
            cases h
            rw [hband] at h'
            cases h'
          · simp only [findNext, hdir, ite_true, hfreq, raiseIn, pure_bind, hband] at hrun
            cases hrun
            exact hself
      | some band =>
          have hrecovers : Recovers g direction fromMhz device c r ↔
              match chooseStation device direction current band (r.sweeps.headD .missing) with
              | .error e => e.cls ≠ .radioError
              | .ok (some _) => True
              | .ok none => ∀ index, device = .ok index → CanResume c index r := by
            constructor
            · exact fun h => h hdir current band hfreq hband
            · intro h _ current' band' hfreq' hband'
              rw [hfreq] at hfreq'
              cases hfreq'
              rw [hband] at hband'
              cases hband'
              exact h
          obtain ⟨r₁, hat, hrun⟩ := findNext_sweeps g device hdir hfreq hband hplays hstable
          rw [hrecovers, hrun]
          cases hchoice : chooseStation device direction current band (r.sweeps.headD .missing) with
          | error e =>
              have hraise : Raises (At { r.bench.halted with sweeps := r.sweeps.tail })
                  (raiseIn (.error e) : Rx F S (Option F)) e
                  (At { r.bench.halted with sweeps := r.sweeps.tail }) := raises_throw
              refine (raises_iff (hraise.bind _) hat).trans ?_
              refine ⟨fun h hcls => ?_, fun h hcls => absurd hcls h⟩
              exact not_resumed_of_silent rfl (h hcls)
          | ok target =>
              obtain ⟨index, rfl⟩ := device_of_chooseStation hchoice
              cases target with
              | some target =>
                  exact ⟨fun _ => trivial, fun _ => no_error_of_returns returns_pure hat⟩
              | none =>
                  obtain ⟨e, b', hraise, hiff⟩ := resume_raises g c index
                    "No strong station found — nothing above the noise."
                    (b := { r.bench.halted with sweeps := r.sweeps.tail }) rfl
                  refine (raises_iff hraise hat).trans (hiff.trans ?_)
                  refine ⟨fun h index' hindex => ?_, fun h => h index rfl⟩
                  cases hindex
                  exact h

/-- An idle band: the station with the default settings is played again. -/
theorem seek_resumes_iff_idle_band :
    let c : Child ℚ := ⟨0, 7, 100, 0, none, false⟩
    let r : Radio ℚ ℕ := {
      live := [c], spawned := 1, pidfile := some 7, proc := some c, freqMhz := some 100
      spawns := [.started 8], sweeps := [.output [(100, -50)] none] }
    Recovers (fun _ => "100") "up".toList (.number 100) (.ok 0) c r ∧
      ∀ e r', findNext (fun _ => "100") "up".toList (.number 100) (.ok 0) r = .error e r' →
        e.cls = .radioError → Resumed c r' := by
  intro c r
  have hrecovers : Recovers (fun _ => "100") "up".toList (.number 100) (.ok 0) c r := by
    intro _ current band _ _
    have hchoice : chooseStation (.ok 0) "up".toList current band (r.sweeps.headD .missing) =
        .ok none := rfl
    rw [hchoice]
    rintro index hindex
    cases hindex
    exact ⟨le_refl 0, rfl, 8, rfl, .inr ⟨rfl, rfl, rfl, rfl⟩⟩
  refine ⟨hrecovers, ?_⟩
  exact (seek_resumes_iff _ _ _ _ c r ⟨rfl, rfl, rfl⟩ (by simp [Stable, r])).mpr hrecovers

/-- Without `rtl_power` a seek stops the receiver for nothing. -/
theorem seek_silences_receiver :
    let c : Child ℚ := ⟨0, 7, 100, 0, none, false⟩
    let r : Radio ℚ ℕ := {
      live := [c], spawned := 1, pidfile := some 7, proc := some c, freqMhz := some 100
      spawns := [.started 8], sweeps := [.missing] }
    ¬∀ e r', findNext (fun _ => "100") "up".toList (.number 100) (.ok 0) r = .error e r' →
      e.cls = .radioError → Resumed c r' := by
  intro c r h
  have hrun : (match findNext (fun _ => "100") "up".toList (.number 100) (.ok 0) r with
      | .ok _ _ => false
      | .error e r' => e.cls = .radioError && r'.live.isEmpty) = true := by decide +kernel
  cases hx : findNext (fun _ => "100") "up".toList (.number 100) (.ok 0) r with
  | ok target r' =>
      rw [hx] at hrun
      cases hrun
  | error e r' =>
      rw [hx] at hrun
      simp only [Bool.and_eq_true, decide_eq_true_eq, List.isEmpty_iff] at hrun
      exact not_resumed_of_silent hrun.2 (h e r' hx hrun.1)

end CwStation.Radio
