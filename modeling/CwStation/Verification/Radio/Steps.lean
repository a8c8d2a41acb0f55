import CwStation.Library.Effects
import CwStation.Model.Radio

/-! # Between and within the steps of the receiver

What a property of the radio has to survive, and the steps that do nothing else to it. -/

namespace CwStation

/-! ## Surveys that are over -/

namespace Bandscan

variable {S : Type} {s : Survey S}

theorem Phase.inSweep_of_not_sweepsLeft {phase : Phase} (h : phase.sweepsLeft = false) :
    phase.inSweep = false := by
  cases phase <;> first | rfl | simp [Phase.sweepsLeft] at h

theorem Run.advance_sweepsLeft {status status' : Status S} {run run' : Run S} {outcome : Outcome S}
    (h : run.phase.sweepsLeft = false) (hstep : run.advance status outcome = some (status', run')) :
    run'.phase.sweepsLeft = false := by
  obtain ⟨request, phase, results, finishCalls, returned, raised⟩ := run
  cases outcome with
  | go =>
    cases phase with
    | atBand rest =>
      cases rest with
      | nil =>
        cases hstep
        rfl
      | cons band rest => simp [Phase.sweepsLeft] at h
    | closing =>
      simp only [Run.advance] at hstep
      split at hstep <;> cases hstep <;> rfl
    | publishing rest =>
      cases hstep
      exact h
    | failing msg | saveFailed msg | ending id =>
      cases hstep
      rfl
    | launching | sweeping band rest | saving | ended | lost => cases hstep
  | launched ok =>
    cases phase <;> first | cases hstep; done | simp [Phase.sweepsLeft] at h
  | swept sweep =>
    cases phase <;> first | cases hstep; done | simp [Phase.sweepsLeft] at h
  | saved result =>
    cases phase with
    | saving =>
      simp only [Run.advance, ite_true, Option.some.injEq, Prod.mk.injEq] at hstep
      rw [← hstep.2]
      cases result with
      | ok id => rfl
      | error e =>
        simp only [Run.endSave]
        split <;> rfl
    | _ => cases hstep

theorem Survey.quiet_iff : s.quiet = true ↔
    s.pending = [] ∧ ∀ run ∈ s.runs, run.phase.sweepsLeft = false := by
  simp [Survey.quiet, List.isEmpty_iff]

theorem Survey.not_sweeping_of_quiet (h : s.quiet = true) : s.sweeping = false := by
  rw [Survey.quiet_iff] at h
  rw [Survey.sweeping, List.any_eq_false]
  intro run hrun
  rw [Phase.inSweep_of_not_sweepsLeft (h.2 run hrun)]
  exact Bool.false_ne_true

/-- While the receiver plays, no survey begins. -/
theorem Survey.step_quiet (h : s.quiet = true) (label : Label S) : (s.step true label).quiet = true := by
  have hquiet := h
  rw [Survey.quiet_iff] at h
  cases label with
  | check hasDevice antenna keys saves =>
    have hrefused : ∃ e, checkRequest true hasDevice antenna keys saves = .error e := by
      unfold checkRequest
      simp only
      split_ifs <;> exact ⟨_, rfl⟩
    obtain ⟨e, he⟩ := hrefused
    simp only [Survey.step, he]
    exact hquiet
  | accept k =>
    simp only [Survey.step, Survey.enter, h.1, List.getElem?_nil]
    exact hquiet
  | worker i outcome =>
    simp only [Survey.step, Survey.work]
    cases hi : s.runs[i]? with
    | none => exact hquiet
    | some run =>
      have hrun := h.2 run (List.mem_of_getElem? hi)
      cases hadv : run.advance s.status outcome with
      | none =>
        simp only [hadv]
        exact hquiet
      | some next =>
        obtain ⟨status, run'⟩ := next
        simp only [hadv, Survey.quiet_iff]
        refine ⟨h.1, ?_⟩
        intro other hother
        rcases List.mem_or_eq_of_mem_set hother with hother | rfl
        · exact h.2 other hother
        · exact Run.advance_sweepsLeft hrun hadv

end Bandscan

namespace Radio

open Effects

variable {F S : Type}

/-! ## What happens between two steps -/

/-- `_state` knows every receiver that is alive. -/
def Attended (r : Radio F S) : Prop := ∀ c ∈ r.live, r.proc = some c

theorem Attended.silent {r : Radio F S} (h : Attended r) (hrun : r.running = false) :
    r.live = [] := by
  rw [List.eq_nil_iff_forall_not_mem]
  intro c hc
  have hup : r.running = true := by
    rw [running, h c hc, Option.any_some, alive, List.any_eq_true]
    exact ⟨c, hc, by simp⟩
  rw [hup] at hrun
  cases hrun

/-- From `r` to `r'` only processes have died and surveys have gone on; none has begun while
the receiver of `_state` played. -/
structure Drifts (r r' : Radio F S) : Prop where
  live : r'.live.Sublist r.live
  proc : r'.proc = r.proc
  freqMhz : r'.freqMhz = r.freqMhz
  pidfile : r'.pidfile = r.pidfile
  spawned : r'.spawned = r.spawned
  apart : r'.apart = r.apart
  quiet : Attended r → r.survey.quiet = true → r'.live ≠ [] → r'.survey.quiet = true
  history : ∃ new, r'.history = r.history ++ new ∧ ∀ m ∈ new, m.live.Sublist r.live ∧
    m.proc = r.proc ∧ m.pidfile = r.pidfile ∧
      (Attended r → r.survey.quiet = true → m.live ≠ [] → m.sweeping = false)

theorem Drifts.attended {r r' : Radio F S} (h : Drifts r r') (hr : Attended r) : Attended r' := by
  intro c hc
  rw [h.proc]
  exact hr c (h.live.subset hc)

/-- Nothing has happened but to the script and to the receivers that are alive. -/
theorem Drifts.of_eq {r r' : Radio F S} (hlive : r'.live.Sublist r.live) (hproc : r'.proc = r.proc)
    (hfreq : r'.freqMhz = r.freqMhz) (hpidfile : r'.pidfile = r.pidfile)
    (hspawned : r'.spawned = r.spawned) (hapart : r'.apart = r.apart)
    (hsurvey : r'.survey = r.survey) (hhistory : r'.history = r.history) : Drifts r r' := by
  refine ⟨hlive, hproc, hfreq, hpidfile, hspawned, hapart, ?_, [], ?_, ?_⟩
  · intro _ hquiet _
    rw [hsurvey]
    exact hquiet
  · rw [hhistory, List.append_nil]
  · intro m hm
    cases hm

theorem Drifts.refl (r : Radio F S) : Drifts r r :=
  .of_eq (List.Sublist.refl _) rfl rfl rfl rfl rfl rfl rfl

theorem drifts_filter (r : Radio F S) (q : Child F → Bool) :
    Drifts r { r with live := r.live.filter q } :=
  .of_eq List.filter_sublist rfl rfl rfl rfl rfl rfl rfl

theorem Drifts.trans {r r' r'' : Radio F S} (h : Drifts r r') (h' : Drifts r' r'') :
    Drifts r r'' := by
  obtain ⟨new, hnew, hall⟩ := h.history
  obtain ⟨new', hnew', hall'⟩ := h'.history
  refine ⟨h'.live.trans h.live, h'.proc.trans h.proc, h'.freqMhz.trans h.freqMhz,
    h'.pidfile.trans h.pidfile, h'.spawned.trans h.spawned, h'.apart.trans h.apart, ?_,
    new ++ new', ?_, ?_⟩
  · intro hown hquiet hlive
    have hmid : r'.live ≠ [] := fun hnil => hlive (List.sublist_nil.mp (hnil ▸ h'.live))
    exact h'.quiet (h.attended hown) (h.quiet hown hquiet hmid) hlive
  · rw [hnew', hnew, List.append_assoc]
  · intro m hm
    rcases List.mem_append.mp hm with hm | hm
    · exact hall m hm
    · obtain ⟨hlive, hproc, hpid, hsweep⟩ := hall' m hm
      refine ⟨hlive.trans h.live, hproc.trans h.proc, hpid.trans h.pidfile, ?_⟩
      intro hown hquiet hsome
      have hmid : r'.live ≠ [] := fun hnil => hsome (List.sublist_nil.mp (hnil ▸ hlive))
      exact hsweep (h.attended hown) (h.quiet hown hquiet hmid) hsome

/-- Something has happened that can be seen. -/
theorem drifts_record {r r' : Radio F S} (h : Drifts r r') : Drifts r r'.record := by
  obtain ⟨new, hnew, hall⟩ := h.history
  refine ⟨h.live, h.proc, h.freqMhz, h.pidfile, h.spawned, h.apart, h.quiet,
    new ++ [r'.moment], ?_, ?_⟩
  · rw [record, hnew, List.append_assoc]
  · intro m hm
    rcases List.mem_append.mp hm with hm | hm
    · exact hall m hm
    · rw [List.mem_singleton] at hm
      subst hm
      refine ⟨h.live, h.proc, h.pidfile, ?_⟩
      intro hown hquiet hlive
      exact Bandscan.Survey.not_sweeping_of_quiet (h.quiet hown hquiet hlive)

theorem happen_drifts (r : Radio F S) (e : Event S) : Drifts r (r.happen e) := by
  cases e with
  | dies id => exact drifts_record (drifts_filter r fun c => c.id ≠ id)
  | survey label =>
    apply drifts_record
    refine ⟨List.Sublist.refl _, rfl, rfl, rfl, rfl, rfl, ?_, [], by simp, by simp⟩
    intro hown hquiet hlive
    cases hrun : r.running with
    | true => exact Bandscan.Survey.step_quiet hquiet label
    | false => exact absurd (hown.silent hrun) hlive

theorem foldl_happen_drifts (events : List (Event S)) (r : Radio F S) :
    Drifts r (events.foldl happen r) := by
  induction events generalizing r with
  | nil => exact Drifts.refl r
  | cons e events ih => exact (happen_drifts r e).trans (ih _)

theorem pass_drifts (r : Radio F S) : Drifts r r.pass := by
  have htail : Drifts r { r with events := r.events.tail } :=
    .of_eq (List.Sublist.refl _) rfl rfl rfl rfl rfl rfl rfl
  exact htail.trans (foldl_happen_drifts _ _)

/-! ## Steps -/

/-- A property that survives what happens between two steps. -/
def Steady (P : Radio F S → Prop) : Prop := ∀ r r', P r → Drifts r r' → P r'

theorem steady_proc (p : Option (Child F)) : Steady fun r : Radio F S => r.proc = p :=
  fun _ _ h hd => hd.proc.trans h

theorem steady_pidfile (p : Option ℤ) : Steady fun r : Radio F S => r.pidfile = p :=
  fun _ _ h hd => hd.pidfile.trans h

theorem Steady.and {P Q : Radio F S → Prop} (hP : Steady P) (hQ : Steady Q) :
    Steady fun r => P r ∧ Q r :=
  fun r r' h hd => ⟨hP r r' h.1 hd, hQ r r' h.2 hd⟩

variable {P E : Radio F S → Prop}

theorem meets_observe (hP : Steady P) {α : Type} (f : Radio F S → α) :
    Meets P (observe f) (fun a r => P r ∧ a = f r) E := by
  intro r hr
  exact ⟨hP r r.pass hr (pass_drifts r), rfl⟩

theorem meets_change (hP : Steady P) {f : Radio F S → Radio F S} {Q : Radio F S → Prop}
    (h : ∀ r, P r → Q (f r).record) : Meets P (change f) (fun _ => Q) E := by
  intro r hr
  exact h r.pass (hP r r.pass hr (pass_drifts r))

theorem observe_keeps (hP : Steady P) {α : Type} (f : Radio F S → α) : Keeps P (observe f) :=
  (meets_observe hP f).keeps fun _ _ h => h.1

/-- A step that only takes an answer from the script. -/
theorem keeps_of_drifts (hP : Steady P) {α : Type} {x : Rx F S α}
    (hx : ∀ r, Drifts r.pass (endState x r)) : Keeps P x := by
  intro r hr
  exact hP r _ hr ((pass_drifts r).trans (hx r))

theorem whichRtlFm_keeps (hP : Steady P) : Keeps P whichRtlFm :=
  keeps_of_drifts hP fun _ => .of_eq (List.Sublist.refl _) rfl rfl rfl rfl rfl rfl rfl

theorem logTail_keeps (hP : Steady P) : Keeps P logTail :=
  keeps_of_drifts hP fun _ => .of_eq (List.Sublist.refl _) rfl rfl rfl rfl rfl rfl rfl

theorem awaitSink_keeps (hP : Steady P) : Keeps P awaitSink :=
  keeps_of_drifts hP fun _ => .of_eq (List.Sublist.refl _) rfl rfl rfl rfl rfl rfl rfl

theorem rtlPower_keeps (hP : Steady P) : Keeps P rtlPower :=
  keeps_of_drifts hP fun _ => .of_eq (List.Sublist.refl _) rfl rfl rfl rfl rfl rfl rfl

theorem startThreads_keeps (hP : Steady P) : Keeps P startThreads := by
  apply keeps_of_drifts hP
  intro r
  unfold endState startThreads
  simp only
  cases r.pass.threads.headD none <;>
    exact .of_eq (List.Sublist.refl _) rfl rfl rfl rfl rfl rfl rfl

theorem raiseIn_keeps {α : Type} (x : Except PyExc α) : Keeps P (raiseIn x : Rx F S α) := by
  intro r hr
  cases x <;> exact hr

theorem throw_keeps {α : Type} (e : PyExc) : Keeps P (throw e : Rx F S α) := fun _ hr => hr

/-! ## Reaping -/

theorem awaitExit_meets_steady (hP : Steady P) (pid : ℤ) (n : ℕ) :
    Meets P (awaitExit pid n) (fun _ => P) E := by
  induction n with
  | zero =>
    apply meets_change hP
    intro r h
    exact hP r _ h (drifts_record (drifts_filter r _))
  | succ n ih =>
    refine (meets_observe hP _).bind fun seen => ?_
    cases seen with
    | true => exact ih.weaken (fun _ h => h.1) (fun _ _ h => h) fun _ h => h
    | false => exact meets_pure fun _ h => h.1

theorem killStale_meets_steady (hP : Steady P) (pid : ℤ) :
    Meets P (killStale pid) (fun _ => P) E := by
  unfold killStale
  by_cases hpos : 0 < pid
  · simp only [hpos, ite_true]
    exact awaitExit_meets_steady hP pid 21
  · simp only [hpos, ite_false]
    exact meets_pure fun _ h => h

/-- Reaping only kills, and removes the pidfile. -/
theorem reapStale_meets_steady (hP : Steady P) (hunlink : Meets P unlinkPidfile (fun _ => P) E) :
    Meets P reapStale (fun _ => P) E := by
  refine (meets_observe hP _).bind fun file => ?_
  cases file with
  | none => exact meets_pure fun _ h => h.1
  | some pid =>
    have hown := (meets_observe (E := E) hP (supervises pid)).weaken
      (fun r (h : P r ∧ some pid = r.pidfile) => h.1) (fun _ _ h => h) fun _ h => h
    refine hown.bind fun own => ?_
    cases own with
    | true => exact meets_pure fun _ h => h.1
    | false =>
      have hreap := (killStale_meets_steady (E := E) hP pid).bind fun _ => hunlink
      exact hreap.weaken (fun _ h => h.1) (fun _ _ h => h) fun _ h => h

/-! ## Runs -/

section runs

variable [PyFloat F] (g : F → String) (hP : Steady P) (hstop : Keeps P stopLocked)
  (hstart : ∀ freq device gain directSampling,
    Keeps P (startLocked g freq device gain directSampling))

include hP hstop hstart in
theorem findNext_keeps (direction : Str) (fromMhz : FreqArg F) (device : Except PyExc ℤ) :
    Keeps P (findNext g direction fromMhz device) := by
  unfold findNext
  by_cases hdir : direction = "up".toList ∨ direction = "down".toList
  · simp only [hdir, ite_true]
    refine (raiseIn_keeps _).bind fun current => ?_
    cases bandFor current with
    | none => exact throw_keeps _
    | some band =>
      refine (observe_keeps hP _).bind fun wasPlaying => ?_
      refine hstop.bind fun _ => ?_
      refine (rtlPower_keeps hP).bind fun power => ?_
      refine (raiseIn_keeps _).bind fun target => ?_
      cases target with
      | some target => exact fun _ hr => hr
      | none =>
        cases wasPlaying with
        | none => exact throw_keeps _
        | some freq => exact (hstart freq device none false).bind fun _ => throw_keeps _
  · simp only [hdir, ite_false]
    exact fun _ hr => hr

include hP hstop hstart in
theorem perform_keeps (op : Op F) (hrestart : op = .restart → Keeps P restart) :
    Keeps P (perform g op) := by
  cases op with
  | start freqMhz device gain directSampling =>
    exact (raiseIn_keeps _).bind fun freq => hstart freq device gain directSampling
  | stop => exact hstop
  | retune freqMhz device gain directSampling =>
    exact (raiseIn_keeps _).bind fun freq =>
      hstop.bind fun _ => hstart freq device gain directSampling
  | seek direction fromMhz device =>
    exact (findNext_keeps g hP hstop hstart direction fromMhz device).bind fun target =>
      hstart target device none false
  | restart => exact hrestart rfl

include hP hstop hstart in
/-- What stopping and starting keep holds over every run. -/
theorem after_keeps (ops : List (Op F)) (hrestart : .restart ∈ ops → Keeps P restart)
    (r : Radio F S) (h : P r) : P (after g ops r) := by
  induction ops generalizing r with
  | nil => exact h
  | cons op ops ih =>
    apply ih fun hmem => hrestart (List.mem_cons_of_mem _ hmem)
    apply perform_keeps g hP hstop hstart op _ r h
    intro hop
    exact hrestart (List.mem_cons.mpr (.inl hop.symm))

end runs

end Radio

end CwStation
