import CwStation.Verification.Radio.Steps

/-! # One thing at a time

A survey begins only while no receiver plays. Nothing in the receiver asks for a survey, so
that the two stay apart as long as no receiver is spawned under a survey. -/

namespace CwStation.Radio

open Effects

variable {F S : Type} {r r' : Radio F S}

/-! ## The invariant -/

/-- As long as no receiver has been spawned under a survey, no survey will sweep while one is
alive, and none has been seen to. -/
structure Exclusive (r : Radio F S) : Prop where
  attended : Attended r
  quiet : r.apart = true → r.live ≠ [] → r.survey.quiet = true
  seen : r.apart = true → ∀ m ∈ r.history, m.live ≠ [] → m.sweeping = false

/-- The same with no receiver alive. -/
structure Free (r : Radio F S) : Prop extends Exclusive r where
  live : r.live = []

theorem Exclusive.drift (h : Exclusive r) (hd : Drifts r r') : Exclusive r' := by
  obtain ⟨new, hnew, hall⟩ := hd.history
  have hbefore : ∀ {live : List (Child F)}, live.Sublist r.live → live ≠ [] → r.live ≠ [] :=
    fun hsub hlive hnil => hlive (List.sublist_nil.mp (hnil ▸ hsub))
  refine ⟨hd.attended h.attended, ?_, ?_⟩
  · intro hapart hlive
    rw [hd.apart] at hapart
    exact hd.quiet h.attended (h.quiet hapart (hbefore hd.live hlive)) hlive
  · intro hapart m hm hlive
    rw [hd.apart] at hapart
    rw [hnew, List.mem_append] at hm
    rcases hm with hm | hm
    · exact h.seen hapart m hm hlive
    · obtain ⟨hsub, -, -, hsweep⟩ := hall m hm
      exact hsweep h.attended (h.quiet hapart (hbefore hsub hlive)) hlive

theorem Free.drift (h : Free r) (hd : Drifts r r') : Free r' := by
  refine ⟨h.toExclusive.drift hd, ?_⟩
  have hlive := hd.live
  rw [h.live] at hlive
  exact List.sublist_nil.mp hlive

theorem Exclusive.record (h : Exclusive r) : Exclusive r.record :=
  h.drift (drifts_record (Drifts.refl r))

theorem Free.record (h : Free r) : Free r.record := h.drift (drifts_record (Drifts.refl r))

theorem steady_exclusive : Steady (Exclusive (F := F) (S := S)) := fun _ _ h hd => h.drift hd

theorem steady_free : Steady (Free (F := F) (S := S)) := fun _ _ h hd => h.drift hd

/-! ## Stopping -/

variable {I E : Radio F S → Prop}

theorem Exclusive.setPidfile (h : Exclusive r) (pidfile : Option ℤ) (unlinks : List Bool) :
    Exclusive { r with pidfile, unlinks } :=
  ⟨h.attended, h.quiet, h.seen⟩

theorem reapStale_exclusive : Keeps (Exclusive (F := F) (S := S)) reapStale := by
  refine (reapStale_meets_steady steady_exclusive ?_).keeps fun _ _ h => h
  apply meets_change steady_exclusive
  intro r h
  exact (h.setPidfile _ _).record

theorem reapStale_free : Keeps (Free (F := F) (S := S)) reapStale := by
  refine (reapStale_meets_steady steady_free ?_).keeps fun _ _ h => h
  apply meets_change steady_free
  intro r h
  exact Free.record ⟨h.toExclusive.setPidfile _ _, h.live⟩

theorem killProc_free : Meets (Exclusive (F := F) (S := S)) killProc (fun _ => Free) E := by
  apply meets_change steady_exclusive
  intro r h
  apply Free.record
  cases hproc : r.proc with
  | none =>
    refine ⟨h, ?_⟩
    rw [List.eq_nil_iff_forall_not_mem]
    intro c hc
    have howned := h.attended c hc
    rw [hproc] at howned
    cases howned
  | some child =>
    refine ⟨h.drift (drifts_filter r fun c => c.id ≠ child.id), ?_⟩
    simp only [removeChild, List.filter_eq_nil_iff]
    intro c hc
    have howned := h.attended c hc
    rw [hproc, Option.some.injEq] at howned
    simp [howned]

theorem clearState_free : Meets (Free (F := F) (S := S)) clearState (fun _ => Free) E := by
  apply meets_change steady_free
  intro r h
  refine Free.record ⟨⟨?_, h.quiet, h.seen⟩, h.live⟩
  simp [Attended, h.live]

/-- Stopping kills the receiver before `_state` forgets it. -/
theorem stopLocked_free : Meets (Exclusive (F := F) (S := S)) stopLocked (fun _ => Free) Exclusive := by
  have hend : Meets (Free (F := F) (S := S)) (do clearState; reapStale) (fun _ => Free) Exclusive :=
    clearState_free.bind fun _ =>
      reapStale_free.meets.weaken (fun _ h => h) (fun _ _ h => h) fun _ h => h.toExclusive
  have hsilent : ∀ r : Radio F S, Exclusive r ∧ false = r.running → Free r :=
    fun r h => ⟨h.1, h.1.attended.silent h.2.symm⟩
  unfold stopLocked
  apply (meets_observe steady_exclusive running).bind
  intro up
  cases up with
  | false => exact hend.weaken hsilent (fun _ _ h => h) fun _ h => h
  | true =>
    have hagain := (meets_observe (E := Exclusive) (steady_exclusive (F := F) (S := S)) running).weaken
      (fun r (h : Exclusive r ∧ true = r.running) => h.1) (fun _ _ h => h) fun _ h => h
    apply hagain.bind
    intro still
    cases still with
    | false => exact hend.weaken hsilent (fun _ _ h => h) fun _ h => h
    | true =>
      have hkill := (killProc_free (F := F) (S := S) (E := Exclusive)).bind fun _ => hend
      exact hkill.weaken (fun _ h => h.1) (fun _ _ h => h) fun _ h => h

theorem stopLocked_exclusive : Keeps (Exclusive (F := F) (S := S)) stopLocked :=
  stopLocked_free.keeps fun _ _ h => h.toExclusive

/-! ## Starting -/

theorem popen_exclusive (freq : F) (device : ℕ) (gain : Option F) (directSampling : Bool) :
    Meets (Free (F := F) (S := S)) (popen freq device gain directSampling)
      (fun child r => Exclusive r ∧ r.proc = some child) Exclusive := by
  intro r hr
  have h := hr.drift (pass_drifts r)
  unfold popen
  simp only
  cases r.pass.spawns.headD (.failed "no such file") with
  | failed msg => exact ⟨h.attended, h.quiet, h.seen⟩
  | started pid =>
    refine ⟨Exclusive.record ⟨?_, ?_, ?_⟩, rfl⟩
    · simp [Attended, h.live]
    · intro hapart _
      exact (Bool.and_eq_true_iff.mp hapart).2
    · intro hapart
      exact h.seen (Bool.and_eq_true_iff.mp hapart).1

theorem settle_exclusive (g : F → String) (freq : F) (child : Child F) :
    Meets (fun r : Radio F S => Exclusive r ∧ r.proc = some child) (settle g freq child)
      (fun _ => Exclusive) Exclusive := by
  have hsteady := steady_exclusive.and (steady_proc (S := S) (some child))
  have hwrite : Meets (fun r : Radio F S => Exclusive r ∧ r.proc = some child)
      (change fun r => { r with pidfile := some child.pid })
      (fun _ r => Exclusive r ∧ r.proc = some child) Exclusive :=
    meets_change hsteady fun r h => ⟨(h.1.setPidfile _ r.unlinks).record, h.2⟩
  refine hwrite.bind fun _ => ?_
  have hthreads := (startThreads_keeps hsteady).meets.weaken (fun _ h => h) (fun _ _ h => h)
    fun r (h : Exclusive r ∧ r.proc = some child) => h.1
  refine hthreads.bind fun _ => ?_
  refine (meets_observe hsteady (alive child)).bind fun up => ?_
  cases up with
  | false =>
    -- the receiver that `_state` forgets is dead
    have hdead : ∀ r : Radio F S, (Exclusive r ∧ r.proc = some child) ∧ false = alive child r →
        Free r := by
      rintro r ⟨⟨h, hproc⟩, hdead⟩
      refine ⟨h, h.attended.silent ?_⟩
      rw [running, hproc, Option.any_some]
      exact hdead.symm
    have htail := (logTail_keeps (steady_free (F := F) (S := S))).meets.weaken hdead
      (fun _ _ h => h) fun _ h => h.toExclusive
    refine htail.bind fun tail => ?_
    refine clearState_free.bind fun _ => ?_
    exact meets_throw fun _ h => h.toExclusive
  | true =>
    have hsink := (awaitSink_keeps (steady_exclusive (F := F) (S := S))).meets.weaken
      (fun r (h : (Exclusive r ∧ r.proc = some child) ∧ true = alive child r) => h.1.1)
      (fun _ _ h => h) fun _ h => h
    refine hsink.bind fun sink => ?_
    cases sink with
    | none => exact meets_pure fun _ h => h
    | some error =>
      exact stopLocked_exclusive.meets.bind fun _ => meets_throw fun _ h => h

theorem startLocked_exclusive (g : F → String) (freq : F) (device : Except PyExc ℤ)
    (gain : Option F) (directSampling : Bool) :
    Keeps (Exclusive (F := F) (S := S)) (startLocked g freq device gain directSampling) := by
  unfold startLocked
  refine (raiseIn_keeps device).bind fun device => ?_
  by_cases hneg : device < 0
  · simp only [hneg, ite_true]
    exact fun _ hr => hr
  simp only [hneg, ite_false]
  refine (whichRtlFm_keeps steady_exclusive).bind fun tool => ?_
  cases tool with
  | false => exact throw_keeps _
  | true =>
    refine reapStale_exclusive.bind fun _ => ?_
    refine Meets.keeps (Meets.bind (meets_observe steady_exclusive running) fun up => ?_)
      fun _ _ h => h
    cases up with
    | true => exact meets_throw fun _ h => h.1
    | false =>
      have hspawn := (popen_exclusive (S := S) freq device.toNat gain directSampling).bind
        (settle_exclusive g freq)
      refine hspawn.weaken ?_ (fun _ _ h => h) fun _ h => h
      rintro r ⟨h, hrun⟩
      exact ⟨h, h.attended.silent hrun.symm⟩

/-! ## Runs -/

variable [PyFloat F] (g : F → String)

/-- In a run in which no receiver is spawned under a survey, no band is ever swept while a
receiver is alive. -/
theorem surveys_never_sweep_under_receiver (ops : List (Op F)) (hops : .restart ∉ ops)
    (r : Radio F S) (hlive : r.live = []) (hhistory : r.history = [])
    (hapart : (after g ops r).apart = true) :
    ∀ m ∈ (after g ops r).history, ¬(m.sweeping = true ∧ m.live ≠ []) := by
  have hstart : Exclusive r := by
    refine ⟨?_, ?_, ?_⟩ <;> simp [Attended, hlive, hhistory]
  have hend := after_keeps g steady_exclusive stopLocked_exclusive (startLocked_exclusive g) ops
    (fun hmem => absurd hmem hops) r hstart
  rintro m hm ⟨hsweep, hsome⟩
  rw [hend.seen hapart m hm hsome] at hsweep
  cases hsweep

/-- A survey that comes and goes between two receivers. -/
theorem surveys_never_sweep_under_receiver_taken_in_turn :
    let check : Bandscan.Label ℕ := .check true "dipole".toList ["80m".toList] false
    let sweep : List (Bandscan.Label ℕ) := [check, .accept 0, .worker 0 (.launched true),
      .worker 0 .go, .worker 0 (.swept (.scored 3)), .worker 0 .go]
    let ops : List (Op ℚ) := [.start (.number 100) (.ok 0) none false, .stop,
      .start (.number 101) (.ok 0) none false]
    let r : Radio ℚ ℕ := {
      spawns := [.started 7, .started 8]
      events := List.replicate 11 [] ++ [sweep.map .survey] }
    ((after (fun _ => "") ops r).apart = true ∧
      (after (fun _ => "") ops r).history.any (fun m => m.sweeping) = true) ∧
        ∀ m ∈ (after (fun _ => "") ops r).history, ¬(m.sweeping = true ∧ m.live ≠ []) := by
  refine ⟨by decide +kernel, ?_⟩
  exact surveys_never_sweep_under_receiver _ _ (by simp) _ rfl rfl (by decide +kernel)

/-- The receiver is started while a survey sweeps: nothing in `_start_locked` asks for it. -/
theorem receiver_started_under_sweep :
    let check : Bandscan.Label ℕ := .check true "dipole".toList ["80m".toList] false
    let sweep : List (Bandscan.Label ℕ) := [check, .accept 0, .worker 0 (.launched true),
      .worker 0 .go]
    let ops : List (Op ℚ) := [.start (.number 100) (.ok 0) none false]
    let r : Radio ℚ ℕ := { spawns := [.started 7], events := [sweep.map .survey] }
    ¬∀ m ∈ (after (fun _ => "") ops r).history, ¬(m.sweeping = true ∧ m.live ≠ []) := by
  decide +kernel

end CwStation.Radio
