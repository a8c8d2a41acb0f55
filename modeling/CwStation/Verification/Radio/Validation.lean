import CwStation.Model.Floats
import CwStation.Verification.Radio.Steps

/-! # What is checked before the receiver is stopped

Retuning checks the frequency first. The device index is only checked by the start that comes
after the stop. -/

namespace CwStation.Radio

open Effects

variable {F S : Type} {E : Radio F S → Prop}

/-! ## Stopping -/

theorem clearState_silences :
    Meets (fun _ : Radio F S => True) clearState (fun _ r => r.proc = none) E := by
  have hany : Steady fun _ : Radio F S => True := fun _ _ h _ => h
  apply meets_change hany
  intro r _
  rfl

theorem killProc_returns :
    Meets (fun _ : Radio F S => True) killProc (fun _ _ => True) E := by
  have hany : Steady fun _ : Radio F S => True := fun _ _ h _ => h
  exact meets_change hany fun _ _ => trivial

theorem reapStale_silent :
    Meets (fun r : Radio F S => r.proc = none) reapStale (fun _ r => r.proc = none) E := by
  apply reapStale_meets_steady (steady_proc none)
  apply meets_change (steady_proc none)
  intro r h
  exact h

/-- Stopping never raises, and leaves no receiver behind. -/
theorem stopLocked_silences :
    Meets (fun _ : Radio F S => True) stopLocked (fun _ r => r.proc = none) E := by
  have hany : Steady fun _ : Radio F S => True := fun _ _ h _ => h
  have hend : Meets (fun _ : Radio F S => True) (do clearState; reapStale)
      (fun _ r => r.proc = none) E := clearState_silences.bind fun _ => reapStale_silent
  have hlook : Meets (fun _ : Radio F S => True) (observe running) (fun _ _ => True) E :=
    (meets_observe hany running).weaken (fun _ h => h) (fun _ _ h => h.1) fun _ h => h
  unfold stopLocked
  refine hlook.bind fun up => ?_
  cases up with
  | false => exact hend
  | true =>
    refine hlook.bind fun still => ?_
    cases still with
    | false => exact hend
    | true => exact killProc_returns.bind fun _ => hend

/-! ## Retuning with a bad argument -/

/-- A start with a bad device index does nothing. -/
theorem startLocked_refuses (g : F → String) (freq : F) {device : Except PyExc ℤ}
    (h : (∃ e, device = .error e) ∨ ∃ index < 0, device = .ok index) (gain : Option F)
    (directSampling : Bool) (r : Radio F S) :
    ∃ e, startLocked g freq device gain directSampling r = .error e r := by
  rcases h with ⟨e, rfl⟩ | ⟨index, hneg, rfl⟩
  · exact ⟨e, rfl⟩
  · refine ⟨.radio ("Not a device index: " ++ toString index), ?_⟩
    simp only [startLocked, raiseIn, pure_bind, hneg, ite_true]
    rfl

section retune

variable [PyFloat F]

/-- A frequency or a device index that is refused. -/
structure Refused (g : F → String) (freqMhz : FreqArg F) (device : Except PyExc ℤ) : Prop where
  argument : (∃ e, validateFreq g freqMhz = .error e) ∨ (∃ e, device = .error e) ∨
    ∃ index < 0, device = .ok index

/-- The receiver that plays in `r` plays on in `r'`, at its frequency. -/
structure PlaysOn (r r' : Radio F S) : Prop where
  running : r'.running = true
  proc : r'.proc = r.proc
  freqMhz : r'.freqMhz = r.freqMhz

/-- A retune that is refused leaves the playing receiver alone exactly if the frequency is
what is wrong. -/
theorem retune_refused_iff (g : F → String) (freqMhz : FreqArg F) (device : Except PyExc ℤ)
    (gain : Option F) (directSampling : Bool) (r : Radio F S) (h : Refused g freqMhz device) :
    (∃ e r', retune g freqMhz device gain directSampling r = .error e r' ∧
      (r.running = true → PlaysOn r r')) ↔
        (∃ e, validateFreq g freqMhz = .error e) ∨ r.running = false := by
  cases hfreq : validateFreq g freqMhz with
  | error e =>
      refine iff_of_true ⟨e, r, ?_, fun hrun => ⟨hrun, rfl, rfl⟩⟩ (.inl ⟨e, rfl⟩)
      rw [retune, hfreq]
      rfl
  | ok freq =>
      have hdevice : (∃ e, device = .error e) ∨ ∃ index < 0, device = .ok index := by
        rcases h.argument with ⟨e, he⟩ | hdevice
        · rw [hfreq] at he
          cases he
        · exact hdevice
      have hstop := stopLocked_silences (E := fun _ => False) r trivial
      cases hrun : stopLocked r with
      | error e r' =>
          rw [hrun] at hstop
          exact hstop.elim
      | ok _ r' =>
          rw [hrun] at hstop
          obtain ⟨e, hstart⟩ := startLocked_refuses g freq hdevice gain directSampling r'
          have hretune : retune g freqMhz device gain directSampling r = .error e r' := by
            rw [retune, hfreq]
            exact (bind_of_ok hrun).trans hstart
          have hsilent : r'.running = false := by rw [running, hstop]; rfl
          rw [hretune]
          constructor
          · rintro ⟨e', r'', heq, hplays⟩
            cases heq
            right
            by_contra hup
            have hon := (hplays (by simpa using hup)).running
            rw [hsilent] at hon
            cases hon
          · rintro (⟨e', he⟩ | hdown)
            · cases he
            · refine ⟨e, r', rfl, fun hup => ?_⟩
              rw [hdown] at hup
              cases hup

end retune

/-- A frequency out of band, while the receiver plays. -/
theorem retune_refused_iff_out_of_band :
    let c : Child ℚ := ⟨0, 7, 100, 0, none, false⟩
    let r : Radio ℚ ℕ := {
      live := [c], spawned := 1, pidfile := some 7, proc := some c, freqMhz := some 100 }
    Refused (fun _ => "7.03") (.number (703 / 100 : ℚ)) (.ok 0) ∧
      ((∃ e r', retune (fun _ => "7.03") (.number (703 / 100)) (.ok 0) none false r = .error e r' ∧
        (r.running = true → PlaysOn r r')) ↔
          (∃ e, validateFreq (fun _ => "7.03") (.number (703 / 100 : ℚ)) = .error e) ∨
            r.running = false) := by
  intro c r
  have hrefused : Refused (fun _ => "7.03") (.number (703 / 100 : ℚ)) (.ok 0) :=
    ⟨.inl ⟨_, if_neg (by decide +kernel)⟩⟩
  exact ⟨hrefused, retune_refused_iff _ _ _ none false r hrefused⟩

/-- The device index -1 stops the receiver. -/
theorem bad_device_stops_receiver :
    let c : Child ℚ := ⟨0, 7, 100, 0, none, false⟩
    let r : Radio ℚ ℕ := {
      live := [c], spawned := 1, pidfile := some 7, proc := some c, freqMhz := some 100 }
    Refused (fun _ => "100") (.number (100 : ℚ)) (.ok (-1)) ∧ r.running = true ∧
      ¬∀ e r', retune (fun _ => "100") (.number 100) (.ok (-1)) none false r = .error e r' →
        PlaysOn r r' := by
  intro c r
  refine ⟨⟨.inr (.inr ⟨-1, by decide, rfl⟩)⟩, by decide +kernel, fun h => ?_⟩
  have hrun : (match retune (fun _ => "100") (.number 100) (.ok (-1)) none false r with
      | .ok _ _ => false
      | .error _ r' => !r'.running) = true := by decide +kernel
  cases hx : retune (fun _ => "100") (.number 100) (.ok (-1)) none false r with
  | ok _ r' =>
      rw [hx] at hrun
      cases hrun
  | error e r' =>
      rw [hx] at hrun
      have hsilent : (!r'.running) = true := hrun
      rw [(h e r' hx).running] at hsilent
      cases hsilent

end CwStation.Radio
