import CwStation.Verification.Radio.Steps

/-! # No orphaned receiver

Between operations the pidfile names every `rtl_fm` that is alive, and there is at most
one. Within an operation a new one is for a moment known to `_state` only. -/

namespace CwStation.Radio

open Effects

variable {F S : Type}

/-! ## The invariant -/

/-- At most one receiver is alive, and it is known to `_state` or to the pidfile. -/
def Moment.Safe (m : Moment F) : Prop :=
  m.live.length ≤ 1 ∧ ∀ c ∈ m.live, m.proc = some c ∨ m.pidfile = some (c.pid : ℤ)

/-- What holds at every step: the receiver `_state` knows is told from others by its place
in the order of spawning. -/
structure Tame (r : Radio F S) : Prop where
  single : r.live.length ≤ 1
  spawned : ∀ c ∈ r.live, c.id < r.spawned
  handle : ∀ p, r.proc = some p → p.id < r.spawned ∧ ∀ c ∈ r.live, c.id = p.id → c = p
  history : ∀ m ∈ r.history, m.Safe

/-- The pidfile names the receiver that is alive. -/
structure Tracked (r : Radio F S) : Prop extends Tame r where
  named : ∀ c ∈ r.live, r.pidfile = some (c.pid : ℤ)

/-- `_state` knows the receiver that is alive. -/
structure Owned (r : Radio F S) : Prop extends Tame r where
  owned : Attended r

/-- No receiver is alive. -/
structure Silent (r : Radio F S) : Prop extends Tame r where
  live : r.live = []

theorem Silent.tracked {r : Radio F S} (h : Silent r) : Tracked r :=
  ⟨h.toTame, by simp [h.live]⟩

theorem Silent.owned {r : Radio F S} (h : Silent r) : Owned r :=
  ⟨h.toTame, by simp [Attended, h.live]⟩

section drift

variable {r r' : Radio F S}

theorem Tame.drift (h : Tame r) (hd : Drifts r r')
    (hsafe : ∀ c ∈ r.live, r.proc = some c ∨ r.pidfile = some (c.pid : ℤ)) : Tame r' := by
  obtain ⟨new, hnew, hall⟩ := hd.history
  refine ⟨hd.live.length_le.trans h.single, ?_, ?_, ?_⟩
  · intro c hc
    rw [hd.spawned]
    exact h.spawned c (hd.live.subset hc)
  · intro p hp
    rw [hd.proc] at hp
    rw [hd.spawned]
    obtain ⟨hid, hsame⟩ := h.handle p hp
    exact ⟨hid, fun c hc => hsame c (hd.live.subset hc)⟩
  · intro m hm
    rw [hnew, List.mem_append] at hm
    rcases hm with hm | hm
    · exact h.history m hm
    · obtain ⟨hlive, hproc, hpid, -⟩ := hall m hm
      refine ⟨hlive.length_le.trans h.single, ?_⟩
      intro c hc
      rw [hproc, hpid]
      exact hsafe c (hlive.subset hc)

theorem Tracked.drift (h : Tracked r) (hd : Drifts r r') : Tracked r' := by
  refine ⟨h.toTame.drift hd fun c hc => .inr (h.named c hc), ?_⟩
  intro c hc
  rw [hd.pidfile]
  exact h.named c (hd.live.subset hc)

theorem Owned.drift (h : Owned r) (hd : Drifts r r') : Owned r' := by
  exact ⟨h.toTame.drift hd fun c hc => .inl (h.owned c hc), hd.attended h.owned⟩

theorem Silent.drift (h : Silent r) (hd : Drifts r r') : Silent r' := by
  refine ⟨h.tracked.toTame.drift hd fun c hc => .inr (h.tracked.named c hc), ?_⟩
  have hlive := hd.live
  rw [h.live] at hlive
  exact List.sublist_nil.mp hlive

end drift

/-! ## Steps -/

section record

variable {r : Radio F S}

theorem Tame.record (h : Tame r)
    (hsafe : ∀ c ∈ r.live, r.proc = some c ∨ r.pidfile = some (c.pid : ℤ)) : Tame r.record := by
  refine ⟨h.single, h.spawned, h.handle, ?_⟩
  intro m hm
  rcases List.mem_append.mp hm with hm | hm
  · exact h.history m hm
  · rw [List.mem_singleton] at hm
    subst hm
    exact ⟨h.single, hsafe⟩

theorem Tracked.record (h : Tracked r) : Tracked r.record :=
  ⟨h.toTame.record fun c hc => .inr (h.named c hc), h.named⟩

theorem Owned.record (h : Owned r) : Owned r.record :=
  ⟨h.toTame.record fun c hc => .inl (h.owned c hc), h.owned⟩

theorem Silent.record (h : Silent r) : Silent r.record :=
  ⟨h.toTame.record (by simp [h.live]), h.live⟩

end record

theorem steady_tracked : Steady (Tracked (F := F) (S := S)) := fun _ _ h hd => h.drift hd

theorem steady_owned : Steady (Owned (F := F) (S := S)) := fun _ _ h hd => h.drift hd

theorem steady_silent : Steady (Silent (F := F) (S := S)) := fun _ _ h hd => h.drift hd

/-! ## Reaping -/

variable {E : Radio F S → Prop} {p : Option (Child F)}

theorem awaitExit_meets (pid : ℤ) (n : ℕ) :
    Meets (fun r : Radio F S => (Tracked r ∧ r.proc = p) ∧ r.pidfile = some pid) (awaitExit pid n)
      (fun _ r => Silent r ∧ r.proc = p) E := by
  have hsteady := (steady_tracked.and (steady_proc p)).and (steady_pidfile (S := S) (some pid))
  have hall : ∀ r : Radio F S, (Tracked r ∧ r.proc = p) ∧ r.pidfile = some pid →
      ∀ c ∈ r.live, (c.pid : ℤ) = pid := by
    rintro r ⟨⟨h, -⟩, hpid⟩ c hc
    have hnamed := h.named c hc
    rw [hpid, Option.some.injEq] at hnamed
    exact hnamed.symm
  induction n with
  | zero =>
    apply meets_change hsteady
    intro r h
    have hnil : r.live.filter (fun c => (c.pid : ℤ) ≠ pid) = [] := by
      rw [List.filter_eq_nil_iff]
      intro c hc
      simp [hall r h c hc]
    have htame := (h.1.1.drift (drifts_filter r fun c => (c.pid : ℤ) ≠ pid)).toTame
    exact ⟨Silent.record ⟨htame, hnil⟩, h.1.2⟩
  | succ n ih =>
    apply (meets_observe hsteady (isRtlFm pid)).bind
    intro seen
    cases seen with
    | true => exact ih.weaken (fun r h => h.1) (fun _ _ h => h) fun _ h => h
    | false =>
      apply meets_pure
      rintro r ⟨h, hseen⟩
      refine ⟨⟨h.1.1.toTame, ?_⟩, h.1.2⟩
      rw [List.eq_nil_iff_forall_not_mem]
      intro c hc
      have hyes : isRtlFm pid r = true := by
        rw [isRtlFm, List.any_eq_true]
        exact ⟨c, hc, by simp [hall r h c hc]⟩
      rw [hyes] at hseen
      cases hseen

theorem killStale_meets (pid : ℤ) :
    Meets (fun r : Radio F S => (Tracked r ∧ r.proc = p) ∧ r.pidfile = some pid) (killStale pid)
      (fun _ r => Silent r ∧ r.proc = p) E := by
  unfold killStale
  by_cases hpos : 0 < pid
  · simp only [hpos, ite_true]
    exact awaitExit_meets pid 21
  · simp only [hpos, ite_false]
    apply meets_pure
    rintro r ⟨⟨h, hproc⟩, hpid⟩
    refine ⟨⟨h.toTame, ?_⟩, hproc⟩
    rw [List.eq_nil_iff_forall_not_mem]
    intro c hc
    have hnamed := h.named c hc
    rw [hpid, Option.some.injEq] at hnamed
    have hcpos : (0 : ℤ) < c.pid := by exact_mod_cast c.pid.pos
    omega

theorem unlinkPidfile_meets :
    Meets (fun r : Radio F S => Silent r ∧ r.proc = p) unlinkPidfile
      (fun _ r => Silent r ∧ r.proc = p) E := by
  apply meets_change (steady_silent.and (steady_proc p))
  rintro r ⟨h, hproc⟩
  have htame := h.toTame
  exact ⟨Silent.record ⟨⟨htame.single, htame.spawned, htame.handle, htame.history⟩, h.live⟩, hproc⟩

/-- The receiver that `_state` supervises is the one that is alive. -/
theorem owned_of_running {r : Radio F S} (h : Tame r) (hrun : r.running = true) : Owned r := by
  refine ⟨h, ?_⟩
  intro c hc
  cases hproc : r.proc with
  | none => simp [running, hproc] at hrun
  | some q =>
    simp only [running, hproc, Option.any_some, alive, List.any_eq_true, decide_eq_true_eq] at hrun
    obtain ⟨d, hd, hid⟩ := hrun
    have hdq : d = q := (h.handle q hproc).2 d hd hid
    have hcd : c = d := by
      have hsingle := h.single
      cases hlive : r.live with
      | nil => simp [hlive] at hc
      | cons a l =>
        rw [hlive] at hc hd hsingle
        cases l with
        | nil => rw [List.mem_singleton.mp hc, List.mem_singleton.mp hd]
        | cons b l => simp at hsingle
    rw [hcd, hdq]

/-- Reaping leaves at most the receiver that `_state` supervises. -/
theorem reapStale_meets :
    Meets (fun r : Radio F S => Tracked r ∧ r.proc = p) reapStale
      (fun _ r => (Tracked r ∧ Owned r) ∧ r.proc = p) E := by
  have hsteady := steady_tracked.and (steady_proc (S := S) p)
  apply (meets_observe hsteady Radio.pidfile).bind
  intro file
  cases file with
  | none =>
    apply meets_pure
    rintro r ⟨⟨h, hproc⟩, hfile⟩
    have hlive : r.live = [] := by
      rw [List.eq_nil_iff_forall_not_mem]
      intro c hc
      have hnamed := h.named c hc
      rw [← hfile] at hnamed
      cases hnamed
    exact ⟨⟨h, Silent.owned ⟨h.toTame, hlive⟩⟩, hproc⟩
  | some pid =>
    have hfile : Steady fun r : Radio F S => (Tracked r ∧ r.proc = p) ∧ some pid = r.pidfile :=
      hsteady.and fun r r' h hd => h.trans hd.pidfile.symm
    apply (meets_observe hfile (supervises pid)).bind
    intro own
    cases own with
    | true =>
      apply meets_pure
      rintro r ⟨⟨⟨h, hproc⟩, -⟩, hown⟩
      have hrun : r.running = true := by
        have hboth := hown.symm
        rw [supervises, Bool.and_eq_true] at hboth
        exact hboth.1
      exact ⟨⟨h, owned_of_running h.toTame hrun⟩, hproc⟩
    | false =>
      have hlast : Meets (fun r : Radio F S => Silent r ∧ r.proc = p) unlinkPidfile
          (fun _ r => (Tracked r ∧ Owned r) ∧ r.proc = p) E :=
        unlinkPidfile_meets.weaken (fun _ h => h)
          (fun _ _ h => ⟨⟨h.1.tracked, h.1.owned⟩, h.2⟩) fun _ h => h
      refine Meets.bind ?_ fun _ => hlast
      refine (killStale_meets pid).weaken ?_ (fun _ _ h => h) fun _ h => h
      rintro r ⟨⟨h, hpid⟩, -⟩
      exact ⟨h, hpid.symm⟩

/-! ## Stopping -/

theorem killProc_meets : Meets (Tracked (F := F) (S := S)) killProc (fun _ => Tracked) E := by
  apply meets_change steady_tracked
  intro r h
  apply Tracked.record
  cases r.proc with
  | none => exact h
  | some child => exact h.drift (drifts_filter r fun c => c.id ≠ child.id)

theorem clearState_meets :
    Meets (Tracked (F := F) (S := S)) clearState (fun _ r => Tracked r ∧ r.proc = none) E := by
  apply meets_change steady_tracked
  intro r h
  refine ⟨Tracked.record ⟨⟨h.single, h.spawned, ?_, h.history⟩, h.named⟩, rfl⟩
  intro q hq
  cases hq

/-- Stopping leaves no receiver alive, whoever spawned it. -/
theorem stopLocked_meets :
    Meets (Tracked (F := F) (S := S)) stopLocked (fun _ => Silent) E := by
  have hend : Meets (Tracked (F := F) (S := S)) (do clearState; reapStale) (fun _ => Silent) E := by
    apply clearState_meets.bind
    intro _
    refine reapStale_meets.weaken (fun _ h => h) ?_ fun _ h => h
    rintro _ r ⟨⟨h, hown⟩, hproc⟩
    refine ⟨h.toTame, ?_⟩
    rw [List.eq_nil_iff_forall_not_mem]
    intro c hc
    have howned := hown.owned c hc
    rw [hproc] at howned
    cases howned
  have hobserve : Meets (Tracked (F := F) (S := S)) (observe running) (fun _ => Tracked) E :=
    (meets_observe steady_tracked running).weaken (fun _ h => h) (fun _ _ h => h.1) fun _ h => h
  unfold stopLocked
  apply hobserve.bind
  intro up
  cases up with
  | false => exact hend
  | true =>
    apply hobserve.bind
    intro still
    cases still with
    | false => exact hend
    | true => exact killProc_meets.bind fun _ => hend

/-! ## Starting -/

theorem popen_meets (freq : F) (device : ℕ) (gain : Option F) (directSampling : Bool) :
    Meets (Silent (F := F) (S := S)) (popen freq device gain directSampling)
      (fun child r => Owned r ∧ r.proc = some child) Tracked := by
  intro r hr
  have h := hr.drift (pass_drifts r)
  unfold popen
  simp only
  cases r.pass.spawns.headD (.failed "no such file") with
  | failed msg =>
    exact ⟨⟨h.single, h.spawned, h.handle, h.history⟩, by simp [h.live]⟩
  | started pid =>
    refine ⟨Owned.record ⟨⟨?_, ?_, ?_, h.history⟩, ?_⟩, rfl⟩
    · simp [h.live]
    · simp [h.live]
    · rintro q hq
      cases hq
      simp [h.live]
    · simp [Attended, h.live]

/-- The pidfile is written while `_state` knows the new receiver. -/
theorem writePidfile_meets (child : Child F) :
    Meets (fun r : Radio F S => Owned r ∧ r.proc = some child)
      (change fun r => { r with pidfile := some child.pid }) (fun _ => Tracked) E := by
  apply meets_change (steady_owned.and (steady_proc _))
  rintro r ⟨h, hproc⟩
  refine Tracked.record ⟨⟨h.single, h.spawned, h.handle, h.history⟩, ?_⟩
  intro c hc
  have howned := h.owned c hc
  rw [hproc, Option.some.injEq] at howned
  rw [howned]

theorem stopLocked_keeps : Keeps (Tracked (F := F) (S := S)) stopLocked :=
  stopLocked_meets.keeps fun _ _ h => h.tracked

variable (g : F → String)

theorem settle_meets (freq : F) (child : Child F) :
    Meets (fun r : Radio F S => Owned r ∧ r.proc = some child) (settle g freq child)
      (fun _ => Tracked) Tracked := by
  refine (writePidfile_meets child).bind fun _ => ?_
  apply Keeps.meets
  refine (startThreads_keeps steady_tracked).bind fun _ => ?_
  refine (observe_keeps steady_tracked _).bind fun up => ?_
  cases up with
  | false =>
    refine (logTail_keeps steady_tracked).bind fun tail => ?_
    refine (clearState_meets.keeps fun _ _ h => h.1).bind fun _ => ?_
    exact throw_keeps _
  | true =>
    refine (awaitSink_keeps steady_tracked).bind fun sink => ?_
    cases sink with
    | none => exact fun _ hr => hr
    | some error => exact stopLocked_keeps.bind fun _ => throw_keeps _

theorem startLocked_keeps (freq : F) (device : Except PyExc ℤ) (gain : Option F)
    (directSampling : Bool) :
    Keeps (Tracked (F := F) (S := S)) (startLocked g freq device gain directSampling) := by
  unfold startLocked
  refine (raiseIn_keeps device).bind fun device => ?_
  by_cases hneg : device < 0
  · simp only [hneg, ite_true]
    exact fun _ hr => hr
  simp only [hneg, ite_false]
  refine (whichRtlFm_keeps steady_tracked).bind fun tool => ?_
  cases tool with
  | false => exact throw_keeps _
  | true =>
    -- after the reaping a receiver that is alive is the one in `_state`
    have hreap : Meets (Tracked (F := F) (S := S)) reapStale (fun _ r => Tracked r ∧ Owned r)
        Tracked := by
      intro r hr
      have h := reapStale_meets (p := r.proc) (E := Tracked) r ⟨hr, rfl⟩
      cases hrun : reapStale r with
      | ok _ r' =>
        rw [hrun] at h
        exact h.1
      | error _ r' =>
        rw [hrun] at h
        exact h
    refine Meets.keeps (hreap.bind fun _ => ?_) fun _ _ h => h
    apply (meets_observe (steady_tracked.and steady_owned) running).bind
    intro up
    cases up with
    | true => exact meets_throw fun r h => h.1.1
    | false =>
      have hspawn := (popen_meets (S := S) freq device.toNat gain directSampling).bind
        (settle_meets g freq)
      refine hspawn.weaken ?_ (fun _ _ h => h) fun _ h => h
      rintro r ⟨⟨-, hown⟩, hrun⟩
      exact ⟨hown.toTame, hown.owned.silent hrun.symm⟩

theorem restart_keeps : Keeps (Tracked (F := F) (S := S)) restart := by
  refine (meets_change (Q := Tracked) steady_tracked ?_).keeps fun _ _ h => h
  intro r h
  refine Tracked.record ⟨⟨h.single, h.spawned, ?_, h.history⟩, h.named⟩
  intro p hp
  cases hp

variable [PyFloat F]

/-! ## Runs -/

theorem after_tracked (ops : List (Op F)) (r : Radio F S) (h : Tracked r) :
    Tracked (after g ops r) :=
  after_keeps g steady_tracked stopLocked_keeps (startLocked_keeps g) ops
    (fun _ => restart_keeps) r h

/-- Over every run at most one receiver is ever alive, known to `_state` or to the pidfile,
and behind it `stop` returns with none alive. -/
theorem receivers_never_orphaned (ops : List (Op F)) (r : Radio F S) (hlive : r.live = [])
    (hproc : r.proc = none) (hhistory : r.history = []) :
    (∀ m ∈ (after g ops r).history, m.Safe) ∧
      ∃ r', stop (after g ops r) = .ok () r' ∧ r'.live = [] := by
  have hstart : Tracked r := by
    refine ⟨⟨?_, ?_, ?_, ?_⟩, ?_⟩ <;> simp [hlive, hproc, hhistory]
  have hend := after_tracked g ops r hstart
  refine ⟨hend.history, ?_⟩
  have hstop := stopLocked_meets (E := fun _ => False) (after g ops r) hend
  cases hrun : stopLocked (after g ops r) with
  | ok _ r' =>
      rw [hrun] at hstop
      exact ⟨r', hrun, hstop.live⟩
  | error e r' =>
      rw [hrun] at hstop
      exact hstop.elim

/-- A receiver survives a restart; the next start reaps it and plays another. -/
theorem receivers_never_orphaned_restarted :
    let ops : List (Op ℚ) := [.start (.number 100) (.ok 0) none false, .restart,
      .start (.number 101) (.ok 0) none false]
    let r : Radio ℚ ℕ := { pidfile := some 5, spawns := [.started 7, .started 8] }
    ((after (fun _ => "") ops r).history.map fun m => (m.live.map Child.freq, m.pidfile)).getLast? =
        some ([101], some 8) ∧
      (∀ m ∈ (after (fun _ => "") ops r).history, m.Safe) ∧
        ∃ r', stop (after (fun _ => "") ops r) = .ok () r' ∧ r'.live = [] := by
  refine ⟨by decide +kernel, ?_⟩
  exact receivers_never_orphaned _ _ _ rfl rfl rfl

end CwStation.Radio
