import CwStation.Verification.Decoder.Ledger

/-! # The invariant of a decode run

`Booked` is what holds between any two calls of the run-to-text stage, `Sound` what
holds between any two blocks. Both are independent of the float arithmetic. -/

namespace CwStation.DecodeState

open Emit CharEvent

variable {F : Type}

/-- The fields `Booked` speaks about. -/
def books (d : DecodeState F) :=
  (d.dit, d.bootRuns, d.bootMarks, d.cur, d.result.chars, d.result.elements,
    d.result.keyRuns, d.result.text)

variable [PyFloat F]

/-- The ledger with the bootstrap buffers: while the dit is unknown nothing is decoded and
the buffered runs start with a mark; once it is known nothing is buffered. -/
structure Booked (d : DecodeState F) : Prop where
  ledger : Ledger d.bootRuns d
  booting : d.dit = none → d.cur = [] ∧ d.result.chars = [] ∧ d.result.elements = []
  buffered : d.bootMarks = (d.bootRuns.filterMap bootMark).map Prod.snd
  known : d.dit.isSome = true → d.bootRuns = []
  first : ∀ r ∈ d.bootRuns.head?, r.1 = true

theorem Booked.congr {d d' : DecodeState F} (h : Booked d) (heq : d'.books = d.books) :
    Booked d' := by
  simp only [books, Prod.mk.injEq] at heq
  obtain ⟨hdit, hruns, hmarks, hcur, hchars, helements, hkeys, htext⟩ := heq
  refine ⟨⟨?_, ?_, ?_, ?_⟩, ?_, ?_, ?_, ?_⟩
  · rw [hkeys, helements, hruns, h.ledger.marks]
  · rw [hchars, hcur, helements, h.ledger.kinds]
  · rw [htext, hchars, h.ledger.text]
  · rw [hchars]
    exact h.ledger.spaced
  · rw [hdit, hcur, hchars, helements]
    exact h.booting
  · rw [hmarks, hruns, h.buffered]
  · rw [hdit, hruns]
    exact h.known
  · rw [hruns]
    exact h.first

theorem Booked.bootRuns_of_unmarked {d : DecodeState F} (h : Booked d) (hm : d.bootMarks = []) :
    d.bootRuns = [] := by
  have hfirst := h.first
  have hb := h.buffered
  rw [hm] at hb
  cases hruns : d.bootRuns with
  | nil => rfl
  | cons r rest =>
    obtain ⟨on, t, dur⟩ := r
    rw [hruns] at hfirst hb
    have hon : on = true := hfirst (on, t, dur) (by simp)
    subst hon
    simp [bootMark] at hb

/-! ## Bootstrap replay -/

theorem replayRun_ledger {d : DecodeState F} {run : BootRun F} {rest : List (BootRun F)}
    (h : Ledger (run :: rest) d) (hd : d.dit.isSome = true) :
    ∃ out d', replayRun d run = .ok (out, d') ∧
      (Ledger rest d' ∧ d'.dit.isSome = true) ∧ Advance d out d' := by
  obtain ⟨dit, hdit⟩ := Option.isSome_iff_exists.mp hd
  obtain ⟨on, t, dur⟩ := run
  cases on with
  | true =>
    obtain ⟨d', hok, hl, hadv, hdit', -⟩ := addElement_ledger h hdit
    refine ⟨[], d', ?_, ⟨hl, by simp [hdit']⟩, hadv⟩
    simp [replayRun, hok, bind, Except.bind]
  | false =>
    have h' : Ledger rest d := ⟨by simpa [List.filterMap_cons, bootMark] using h.marks, h.kinds, h.text, h.spaced⟩
    obtain ⟨out, d', hok, hl, hadv, hdit', -⟩ := spaceLogic_ledger h' hdit dur (t + dur)
    exact ⟨out, d', hok, ⟨hl, by simp [hdit']⟩, hadv⟩

/-- The replay of a full buffer succeeds and leaves the books without buffered runs. -/
theorem replayBoot_booked {d : DecodeState F} (h : Ledger d.bootRuns d)
    (hd : d.dit.isSome = true) :
    ∃ out d', replayBoot d = .ok (out, d') ∧ Booked d' ∧ Advance d out d' ∧
      d'.dit.isSome = true := by
  have hstart : Ledger d.bootRuns (updateWpm d) ∧ (updateWpm d).dit.isSome = true :=
    ⟨⟨h.marks, h.kinds, h.text, h.spaced⟩, hd⟩
  obtain ⟨out, d', hrun, ⟨hl, hd'⟩, hadv⟩ := emitAll_total
    (P := fun runs d => Ledger runs d ∧ d.dit.isSome = true) (R := Advance)
    Advance.refl (fun _ _ _ _ _ => Advance.trans)
    (fun d run rest h => replayRun_ledger h.1 h.2) hstart
  refine ⟨out, { d' with bootRuns := [], bootMarks := [] }, ?_, ?_, ?_, hd'⟩
  · simp only [replayBoot, bind, Except.bind, hrun]
  · refine ⟨⟨hl.marks, hl.kinds, hl.text, hl.spaced⟩, ?_, rfl, fun _ => rfl, by simp⟩
    intro hnone
    change d'.dit = none at hnone
    simp [hnone] at hd'
  · exact ⟨⟨hadv.chars, hadv.text⟩, hadv.gate⟩

/-- A replay that ends with a mark leaves that mark in the pending symbol. -/
theorem replayBoot_cur {d d' : DecodeState F} {out : List (CharEvent F)}
    {runs : List (BootRun F)} {t dur : F} (hruns : d.bootRuns = runs ++ [(true, t, dur)])
    (h : replayBoot d = .ok (out, d')) : d'.cur ≠ [] := by
  simp only [replayBoot, hruns, bind_eq_ok, emitAll_append, emitAll_cons, emitAll_nil,
    Except.ok.injEq, Prod.exists, Prod.mk.injEq] at h
  obtain ⟨_, e, ⟨_, e₁, -, _, e₂, ⟨_, e₃, hlast, _, _, ⟨_, rfl⟩, _, rfl⟩, _, rfl⟩, _, rfl⟩ := h
  simp only [replayRun, bind_eq_ok, Except.ok.injEq, Prod.mk.injEq] at hlast
  obtain ⟨e₄, hadd, -, rfl⟩ := hlast
  cases hdit : e₁.dit with
  | none => simp [addElement, hdit] at hadd
  | some dit =>
    rw [addElement_of_dit hdit, Except.ok.injEq] at hadd
    subst hadd
    simp

/-! ## Ends of marks and spaces -/

theorem Booked.text_of_booting {d : DecodeState F} (h : Booked d) (hd : d.dit = none) :
    d.result.text = [] := by
  rw [h.ledger.text, (h.booting hd).2.1]
  rfl

/-- A recorded mark is accounted for by buffering it. -/
theorem bufferMark_ledger {d : DecodeState F} (h : Booked d) (t dur : F) :
    Ledger (d.bootRuns ++ [(true, t, dur)]) (bufferMark t dur (recordMark t dur d)) := by
  refine ⟨?_, h.ledger.kinds, h.ledger.text, h.ledger.spaced⟩
  simp [bufferMark, recordMark, h.ledger.marks, bootMark, markRun, List.filterMap_append]

theorem bufferMark_booked {d : DecodeState F} (h : Booked d) (hd : d.dit = none) (t dur : F) :
    Booked (bufferMark t dur (recordMark t dur d)) := by
  refine ⟨bufferMark_ledger h t dur, h.booting, ?_, ?_, ?_⟩
  · simp [bufferMark, recordMark, h.buffered, List.filterMap_append, bootMark]
  · intro hsome
    change d.dit.isSome = true at hsome
    simp [hd] at hsome
  · intro r hr
    change r ∈ (d.bootRuns ++ [(true, t, dur)]).head? at hr
    cases hruns : d.bootRuns with
    | nil =>
      rw [hruns] at hr
      simp only [List.nil_append, List.head?_cons, Option.mem_def, Option.some.injEq] at hr
      rw [← hr]
    | cons r' rest => exact h.first r (by simpa [hruns] using hr)

theorem onMarkEnd_booked {d : DecodeState F} (h : Booked d) (t dur : F) :
    ∃ out d', onMarkEnd t dur d = .ok (out, d') ∧ Booked d' ∧ Advance d out d' ∧
      (endsWithSpace d'.result.text = true → d'.cur ≠ []) := by
  have hfirst : Advance d [] (bufferMark t dur (recordMark t dur d)) :=
    ⟨⟨by simp [bufferMark, recordMark], by simp [bufferMark, recordMark]⟩, rfl⟩
  cases hd : d.dit with
  | none =>
    have hrec : (recordMark t dur d).dit = none := hd
    simp only [onMarkEnd, hrec]
    split
    · obtain ⟨out, d', hok, hb, hadv, -⟩ := replayBoot_booked (F := F)
        (d := { bufferMark t dur (recordMark t dur d) with
          dit := some (estimateDit (bufferMark t dur (recordMark t dur d)).bootMarks) })
        ⟨(bufferMark_ledger h t dur).marks, h.ledger.kinds, h.ledger.text, h.ledger.spaced⟩ rfl
      refine ⟨out, d', hok, hb, ⟨⟨hadv.chars, hadv.text⟩, hadv.gate⟩, ?_⟩
      intro _
      exact replayBoot_cur (show _ = d.bootRuns ++ [(true, t, dur)] from rfl) hok
    · refine ⟨[], _, rfl, bufferMark_booked h hd t dur, hfirst, ?_⟩
      intro hend
      change endsWithSpace d.result.text = true at hend
      rw [h.text_of_booting hd] at hend
      simp [endsWithSpace] at hend
  | some dit =>
    have hrec : (recordMark t dur d).dit = some dit := hd
    have hruns : d.bootRuns = [] := h.known (by simp [hd])
    have hl : Ledger [(true, t, dur)] (recordMark t dur d) := by
      refine ⟨?_, h.ledger.kinds, h.ledger.text, h.ledger.spaced⟩
      simp [recordMark, h.ledger.marks, hruns, bootMark, markRun]
    obtain ⟨d', hok, hl', hadv, hdit, hcur, hruns', hmarks'⟩ := addElement_ledger hl hrec
    refine ⟨[], d', ?_, ⟨?_, ?_, ?_, ?_, ?_⟩, ⟨⟨hadv.chars, hadv.text⟩, hadv.gate⟩, fun _ => hcur⟩
    · simp only [onMarkEnd, hrec, hok, bind, Except.bind]
    · rw [hruns', show (recordMark t dur d).bootRuns = [] from hruns]
      exact hl'
    · simp [hdit]
    · rw [hmarks', hruns']
      exact h.buffered
    · intro _
      exact hruns'.trans hruns
    · rw [hruns']
      exact h.first

theorem onSpaceEnd_booked {d : DecodeState F} (h : Booked d) (dur : F) :
    ∃ out d', onSpaceEnd dur d = .ok (out, d') ∧ Booked d' ∧ Advance d out d' := by
  cases hd : d.dit with
  | none =>
    simp only [onSpaceEnd, hd]
    split
    · exact ⟨[], d, rfl, h, .refl d⟩
    · rename_i hmarks
      refine ⟨[], _, rfl, ⟨⟨?_, h.ledger.kinds, h.ledger.text, h.ledger.spaced⟩,
        fun _ => h.booting hd, ?_, ?_, ?_⟩, ⟨⟨by simp, by simp⟩, by simp [gate]⟩⟩
      · simp [h.ledger.marks, List.filterMap_append, bootMark]
      · simp [h.buffered, List.filterMap_append, bootMark]
      · simp
      · intro r hr
        cases hruns : d.bootRuns with
        | nil => exact absurd (by simp [h.buffered, hruns]) hmarks
        | cons r' rest => exact h.first r (by simpa [hruns] using hr)
  | some dit =>
    simp only [onSpaceEnd, hd]
    obtain ⟨out, d', hok, hl, hadv, hdit, hruns, hmarks⟩ :=
      spaceLogic_ledger h.ledger hd dur (d.runStartS + dur)
    refine ⟨out, d', hok, ⟨by rwa [hruns], by simp [hdit], by rw [hmarks, hruns, h.buffered],
      ?_, by rw [hruns]; exact h.first⟩, hadv⟩
    intro _
    rw [hruns]
    exact h.known (by simp [hd])

/-! ## Blocks -/

/-- `Booked`, in a stream that is not yet flushed: a text that ends with a blank is about
to be continued, by the pending symbol or by the mark being heard. -/
structure Sound (d : DecodeState F) : Prop extends Booked d where
  trailing : endsWithSpace d.result.text = true → d.cur ≠ [] ∨ d.state = true
  unflushed : d.flushed = false

/-- The gate after a block whose candidate is `cand`. -/
def gateAfter (cand : Bool) (tS : F) (d : DecodeState F) :
    ℕ × CWConfig F × ℕ × Bool × Bool × ℕ × F × ℕ × Bool :=
  let count := if cand = d.cand then d.candCount + 1 else 1
  if cand = d.state then
    (d.fs, d.cfg, d.tSamples, d.state, d.state, 0, d.runStartS, d.debounceN, d.flushed)
  else if d.debounceN ≤ count then
    (d.fs, d.cfg, d.tSamples, cand, cand, 0, tS, d.debounceN, d.flushed)
  else
    (d.fs, d.cfg, d.tSamples, d.state, cand, count, d.runStartS, d.debounceN, d.flushed)

theorem commit_sound {d : DecodeState F} (h : Sound d) {cand : Bool} (hc : cand ≠ d.state) (tS : F) :
    ∃ out d', commit cand tS d = .ok (out, d') ∧ Sound d' ∧ Records d out d' ∧
      d'.gate = (d.fs, d.cfg, d.tSamples, cand, d.cand, 0, tS, d.debounceN, d.flushed) := by
  cases hs : d.state with
  | true =>
    obtain ⟨out, e, hok, hb, hadv, hcur⟩ := onMarkEnd_booked h.toBooked d.runStartS (tS - d.runStartS)
    have hg := hadv.gate
    simp only [gate, Prod.mk.injEq] at hg
    refine ⟨out, { e with runStartS := tS, state := cand, candCount := 0 }, ?_,
      ⟨hb.congr rfl, fun hend => .inl (hcur hend), hg.2.2.2.2.2.2.2.2.trans h.unflushed⟩,
      ⟨hadv.chars, hadv.text⟩, by simp [gate, hg]⟩
    simp only [commit, hs, ite_true, hok, bind, Except.bind]
  | false =>
    obtain ⟨out, e, hok, hb, hadv⟩ := onSpaceEnd_booked h.toBooked (tS - d.runStartS)
    have hg := hadv.gate
    simp only [gate, Prod.mk.injEq] at hg
    have htrue : cand = true := by simpa [hs] using hc
    refine ⟨out, { e with runStartS := tS, state := cand, candCount := 0 }, ?_,
      ⟨hb.congr rfl, fun _ => .inr htrue, hg.2.2.2.2.2.2.2.2.trans h.unflushed⟩,
      ⟨hadv.chars, hadv.text⟩, by simp [gate, hg]⟩
    simp only [commit, hs, Bool.false_eq_true, ite_false, hok, bind, Except.bind]

theorem Sound.congr {d d' : DecodeState F} (h : Sound d) (hb : d'.books = d.books)
    (hs : d'.state = d.state) (hf : d'.flushed = d.flushed) : Sound d' := by
  have heq := hb
  simp only [books, Prod.mk.injEq] at heq
  refine ⟨h.toBooked.congr hb, ?_, hf.trans h.unflushed⟩
  rw [heq.2.2.2.2.2.2.2, heq.2.2.2.1, hs]
  exact h.trailing

theorem debounce_sound {d : DecodeState F} (h : Sound d) (cand : Bool) (tS : F) :
    ∃ out d', debounce cand tS d = .ok (out, d') ∧ Sound d' ∧ Records d out d' ∧
      d'.gate = gateAfter cand tS d := by
  by_cases hc : cand = d.state
  · refine ⟨[], { d with cand := d.state, candCount := 0 }, debounce_of_eq hc tS,
      h.congr rfl rfl rfl, ⟨by simp, by simp⟩, ?_⟩
    simp [gateAfter, gate, hc]
  · have hcounted : Sound (recount cand d) := h.congr rfl rfl rfl
    simp only [debounce_of_ne hc, gateAfter, hc, ite_false]
    by_cases hdue : (recount cand d).debounceN ≤ (recount cand d).candCount
    · obtain ⟨out, d', hok, hs, hr, hg⟩ := commit_sound hcounted hc tS
      rw [if_pos hdue]
      exact ⟨out, d', hok, hs, ⟨hr.chars, hr.text⟩, hg.trans (if_pos hdue).symm⟩
    · rw [if_neg hdue]
      exact ⟨[], _, rfl, hcounted, ⟨by simp [recount], by simp [recount]⟩, (if_neg hdue).symm⟩

/-- The envelope stage keeps the books and the gate; it can only fail in its division. -/
theorem levels_keeps {log10 : F → F} {mag tS : F} {d d' : DecodeState F} {lv : Levels F}
    (h : levels log10 mag tS d = .ok (lv, d')) : d'.books = d.books ∧ d'.gate = d.gate := by
  simp only [levels, bind_eq_ok, Except.ok.injEq, Prod.mk.injEq] at h
  obtain ⟨_, _, _, rfl⟩ := h
  exact ⟨rfl, rfl⟩

theorem divide_error {a b : F} {e : PyExc} (h : PyFloat.divide a b = .error e) :
    e = .zeroDivision := by
  unfold PyFloat.divide at h
  split at h
  · exact (Except.error.inj h).symm
  · cases h

theorem levels_error {log10 : F → F} {mag tS : F} {d : DecodeState F} {e : PyExc}
    (h : levels log10 mag tS d = .error e) : e = .zeroDivision := by
  simp only [levels, bind_eq_error, reduceCtorEq, and_false, exists_false, or_false] at h
  exact divide_error h

theorem step_sound {log10 : F → F} {mag tS : F} {d d' : DecodeState F} {out : List (CharEvent F)}
    (h : Sound d) (hstep : step log10 mag tS d = .ok (out, d')) :
    Sound d' ∧ Records d out d' ∧ ∃ lv e, levels log10 mag tS d = .ok (lv, e) ∧
      d'.gate = gateAfter (candidate lv d) tS d := by
  simp only [step, bind_eq_ok, Prod.exists] at hstep
  obtain ⟨lv, e, hlv, hdeb⟩ := hstep
  obtain ⟨hbooks, hgate⟩ := levels_keeps hlv
  have hg := hgate
  simp only [gate, Prod.mk.injEq] at hg
  have hb := hbooks
  simp only [books, Prod.mk.injEq] at hb
  obtain ⟨out', d'', hok, hs, hr, hafter⟩ :=
    debounce_sound (h.congr hbooks hg.2.2.2.1 hg.2.2.2.2.2.2.2.2) (candidate lv e) tS
  rw [hok, Except.ok.injEq, Prod.mk.injEq] at hdeb
  obtain ⟨rfl, rfl⟩ := hdeb
  have hcand : candidate lv e = candidate lv d := by simp only [candidate, hg]
  refine ⟨hs, ⟨?_, ?_⟩, lv, e, hlv, ?_⟩
  · rw [hr.chars, hb.2.2.2.2.1]
  · rw [hr.text, hb.2.2.2.2.2.2.2]
  · rw [hafter, hcand]
    simp only [gateAfter, hg]

theorem step_keeps {log10 : F → F} {mag tS : F} {d d' : DecodeState F} {out : List (CharEvent F)}
    (h : Sound d) (hstep : step log10 mag tS d = .ok (out, d')) : d'.fs = d.fs ∧ d'.cfg = d.cfg := by
  obtain ⟨-, -, lv, e, -, hgate⟩ := step_sound h hstep
  simp only [gateAfter, gate] at hgate
  split_ifs at hgate
  all_goals
    simp only [Prod.mk.injEq] at hgate
    exact ⟨hgate.1, hgate.2.1⟩

theorem step_error {log10 : F → F} {mag tS : F} {d : DecodeState F} {e : PyExc}
    (h : Sound d) (hstep : step log10 mag tS d = .error e) : e = .zeroDivision := by
  rw [step, bind_eq_error] at hstep
  rcases hstep with hlv | ⟨⟨lv, k⟩, hlv, hdeb⟩
  · exact levels_error hlv
  · obtain ⟨hbooks, hgate⟩ := levels_keeps hlv
    simp only [gate, Prod.mk.injEq] at hgate
    obtain ⟨out, d', hok, -⟩ := debounce_sound
      (h.congr hbooks hgate.2.2.2.1 hgate.2.2.2.2.2.2.2.2) (candidate lv k) tS
    dsimp only at hdeb
    rw [hok] at hdeb
    cases hdeb

end CwStation.DecodeState
