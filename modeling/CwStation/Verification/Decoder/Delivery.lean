import CwStation.Verification.Decoder.Runs
import CwStation.Verification.Manager.Fanout

/-! # What the calls return against what the decoder records

Every method hands back what it records, except `flush`, which ignores the characters of
the dangling mark it closes. They are lost exactly when that mark completes the bootstrap
and the replay meets a character gap. -/

namespace CwStation

open Emit

namespace DecodeState

variable {F : Type} [PyFloat F]

/-- All gaps of a stretch of buffered runs are below two dits, under the estimate that
moves with every mark. -/
def GapsWithin : F → List (BootRun F) → Prop
  | _, [] => True
  | dit, (true, _, dur) :: rest => GapsWithin (adaptDit dit dur) rest
  | dit, (false, _, dur) :: rest => dur < PyFloat.lit 2 * dit ∧ GapsWithin dit rest

theorem gapsWithin_append_mark (dit t dur : F) (runs : List (BootRun F)) :
    GapsWithin dit (runs ++ [(true, t, dur)]) ↔ GapsWithin dit runs := by
  induction runs generalizing dit with
  | nil => simp [GapsWithin]
  | cons run rest ih =>
    obtain ⟨on, t', dur'⟩ := run
    cases on with
    | true => exact ih (adaptDit dit dur')
    | false => simp only [List.cons_append, GapsWithin, ih]

theorem flushChar_ne_nil {d : DecodeState F} (h : d.cur ≠ []) (t : F) (word : Bool) :
    (flushChar t word d).1 ≠ [] := by
  have hcur : (flushCur t d).1 ≠ [] := by simp [flushCur, h]
  cases word with
  | false => exact hcur
  | true =>
    rw [flushChar_true]
    exact fun hnil => hcur (List.append_eq_nil_iff.mp hnil).1

/-- A replay emits nothing exactly when it meets no character gap. The pending symbol is
never empty at a gap, because the stretch starts with a mark. -/
theorem replay_emits_nil_iff {d d' : DecodeState F} {dit : F} {runs : List (BootRun F)}
    {out : List (CharEvent F)} (hd : d.dit = some dit)
    (hstart : d.cur ≠ [] ∨ ∀ r ∈ runs.head?, r.1 = true)
    (h : emitAll replayRun d runs = .ok (out, d')) : out = [] ↔ GapsWithin dit runs := by
  induction runs generalizing d dit out with
  | nil =>
    rw [emitAll_nil, Except.ok.injEq, Prod.mk.injEq] at h
    simp [GapsWithin, h.1.symm]
  | cons run rest ih =>
    obtain ⟨on, t, dur⟩ := run
    obtain ⟨first, mid, tail, hfirst, hrest, rfl⟩ := emitAll_cons_eq_ok.mp h
    cases on with
    | true =>
      simp only [replayRun, addElement_of_dit hd, bind, Except.bind, Except.ok.injEq,
        Prod.mk.injEq] at hfirst
      obtain ⟨rfl, hmid⟩ := hfirst
      have hdit : mid.dit = some (adaptDit dit dur) := by rw [← hmid]
      have hcur : mid.cur ≠ [] := by simp [← hmid]
      simpa [GapsWithin] using ih hdit (.inl hcur) hrest
    | false =>
      have hcur : d.cur ≠ [] := by simpa using hstart
      simp only [replayRun, spaceLogic_of_dit hd, Except.ok.injEq] at hfirst
      by_cases hgap : dur < PyFloat.lit 2 * dit
      · simp only [hgap, ite_true, Prod.mk.injEq] at hfirst
        obtain ⟨rfl, rfl⟩ := hfirst
        simpa [GapsWithin, hgap] using ih hd (.inl hcur) hrest
      · simp only [hgap, ite_false] at hfirst
        have hne := flushChar_ne_nil hcur (t + dur) (decide ¬dur < PyFloat.lit 5 * dit)
        rw [hfirst] at hne
        simp only [GapsWithin, hgap, false_and, iff_false]
        exact fun hnil => hne (List.append_eq_nil_iff.mp hnil).1

/-- The stream ends with the key down, on the mark that fills the bootstrap buffer, and
some buffered gap ends a character. -/
def LosesBoot (d : DecodeState F) : Prop :=
  d.state = true ∧ d.dit = none ∧ d.cfg.bootMarks ≤ d.bootMarks.length + 1 ∧
    ¬ GapsWithin (estimateDit (d.bootMarks ++ [d.now - d.runStartS])) d.bootRuns

theorem lost_eq_nil_iff {d : DecodeState F} (h : Booked d) : lost d = [] ↔ ¬ LosesBoot d := by
  cases hs : d.state with
  | false => simp [lost, LosesBoot, hs]
  | true =>
    obtain ⟨out, d', hok, -⟩ := onMarkEnd_booked h d.runStartS (d.now - d.runStartS)
    have hlost : lost d = out := by simp [lost, hs, hok]
    rw [hlost]
    cases hd : d.dit with
    | some dit =>
      have hrec : ∀ t dur, (recordMark t dur d).dit = some dit := fun _ _ => hd
      simp only [onMarkEnd, hrec, addElement_of_dit (hrec _ _), bind, Except.bind,
        Except.ok.injEq, Prod.mk.injEq] at hok
      simp [LosesBoot, hd, hok.1.symm]
    | none =>
      have hrec : ∀ t dur, (recordMark t dur d).dit = none := fun _ _ => hd
      simp only [onMarkEnd, hrec] at hok
      have hlen : (bufferMark d.runStartS (d.now - d.runStartS)
          (recordMark d.runStartS (d.now - d.runStartS) d)).bootMarks =
            d.bootMarks ++ [d.now - d.runStartS] := rfl
      have hcfg : (bufferMark d.runStartS (d.now - d.runStartS)
          (recordMark d.runStartS (d.now - d.runStartS) d)).cfg = d.cfg := rfl
      rw [hlen, hcfg, List.length_append, List.length_singleton, Nat.cast_add,
        Nat.cast_one] at hok
      split at hok
      · rename_i hfull
        simp only [replayBoot, bind_eq_ok, Except.ok.injEq, Prod.exists, Prod.mk.injEq] at hok
        obtain ⟨out', e, hrun, rfl, -⟩ := hok
        have hiff := replay_emits_nil_iff (F := F) rfl
          (.inr (bufferMark_booked h hd _ _).first) hrun
        rw [hiff]
        simp only [LosesBoot, hs, hd, hfull, true_and, not_not]
        exact gapsWithin_append_mark _ _ _ d.bootRuns
      · rename_i hfull
        simp only [Except.ok.injEq, Prod.mk.injEq] at hok
        simp [LosesBoot, hfull, hok.1.symm]

end DecodeState

namespace CWDecoder

open DecodeState AudioEngineManager

variable {F S : Type} [PyFloat F]

/-- The calls of a session return exactly the recorded characters, and so does every
subscriber of a manager see them, unless the flush loses a bootstrap replay. -/
theorem session_returned_eq_chars_iff {dsp : Dsp F S} {fs : ℕ} {c : CWConfig F}
    {chunks : List (List S)} {s : Session F S} (h : session dsp fs c chunks = .ok s) :
    (s.returned = s.after.result.chars ↔ ¬ LosesBoot s.before.toDecodeState) ∧
    ∃ d, init fs c = .ok d ∧ ∀ subscribers : ℕ,
      runSource (demodulator dsp) .idle
          (single d (List.replicate subscribers []) : AudioEngineManager _ Unit _) chunks =
        .ok (single s.after (List.replicate subscribers s.returned)) := by
  obtain ⟨hs, -, out, rest, hret, hchars⟩ := session_finished h
  refine ⟨?_, ?_⟩
  · rw [hret, hchars, ← lost_eq_nil_iff hs.toBooked, List.append_assoc,
      List.append_cancel_left_eq, List.self_eq_append_left]
  · obtain ⟨d, out, rest, hinit, hfeed, hflush, hret⟩ := session_eq_ok h
    refine ⟨d, hinit, fun subscribers => ?_⟩
    rw [runSource_single]
    simp [demodulator, hfeed, hflush, hret, bind, Except.bind]

/-- An `E`, a character gap and a mark that is still on when the stream ends, with a
bootstrap of two marks. -/
def danglingSession : Except PyExc (Session ℚ ℚ) :=
  session .direct 1000 { CWConfig.defaults with bootMarks := 2, envSmooth := 1 }
    [magSamples [0, 1, 1, 0, 0, 0, 0, 0, 1, 1]]

/-- The first of the two characters is recorded and never returned. -/
theorem danglingSession_loses_char :
    ∃ s, danglingSession = .ok s ∧ s.returned ≠ s.after.result.chars := by
  have hcheck : (danglingSession.map fun s =>
      decide (s.returned ≠ s.after.result.chars)).toOption = some true := by decide +kernel
  cases hs : danglingSession with
  | error e => simp [hs, Except.map, Except.toOption] at hcheck
  | ok s => exact ⟨s, rfl, by simpa [hs, Except.map, Except.toOption] using hcheck⟩

theorem danglingSession_returned_iff :
    ∃ s, danglingSession = .ok s ∧
      (s.returned = s.after.result.chars ↔ ¬ LosesBoot s.before.toDecodeState) := by
  obtain ⟨s, hs⟩ := exists_eq_ok (x := danglingSession) (by decide +kernel)
  exact ⟨s, hs, (session_returned_eq_chars_iff hs).1⟩

end CWDecoder

end CwStation
