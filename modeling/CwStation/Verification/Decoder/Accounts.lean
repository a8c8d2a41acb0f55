import CwStation.Verification.Decoder.Timing

/-! # Nothing heard is lost or invented

The states a decoder goes through between two blocks, whatever it is fed, and what can be
said of the result it is finalized with. -/

namespace CwStation

open Emit CharEvent

/-! ## The accounts of a result -/

/-- Every mark is an element, every element is in a character, the text is the characters
without the trailing blank, and blanks stand alone between characters. -/
structure DecodeResult.Accounted {F : Type} (r : DecodeResult F) : Prop where
  marks : r.keyRuns.filter (fun run => run.on) =
    r.elements.map fun ev => ⟨true, ev.tStart, ev.durMs⟩
  kinds : (r.chars.filter fun ev => ev.char != [' ']).flatMap CharEvent.morse =
    r.elements.map ElementEvent.kind
  text : r.text = rstrip (r.chars.flatMap CharEvent.char)
  head : ∀ ev ∈ r.chars.head?, ev.char ≠ [' ']
  apart : r.chars.IsChain fun a b => ¬ (a.char = [' '] ∧ b.char = [' '])

theorem CharEvent.IsGlyph.char_ne_blank {F : Type} {ev : CharEvent F} (h : ev.IsGlyph) :
    ev.char ≠ [' '] := by
  intro hblank
  apply h.getLast_ne_space
  rw [hblank]
  rfl

theorem CharEvent.Spaced.isBlank_of_char {F : Type} {chars : List (CharEvent F)} (h : Spaced chars)
    {ev : CharEvent F} (hev : ev ∈ chars) (hchar : ev.char = [' ']) : ev.IsBlank := by
  rcases h.each ev hev with hg | hb
  · exact absurd hchar hg.char_ne_blank
  · exact hb

theorem CharEvent.Spaced.flatMap_filter {F : Type} {chars : List (CharEvent F)} (h : Spaced chars) :
    (chars.filter fun ev => ev.char != [' ']).flatMap CharEvent.morse =
      chars.flatMap CharEvent.morse := by
  have heach : ∀ ev ∈ chars, ev.char = [' '] → ev.morse = [] :=
    fun ev hev hchar => (h.isBlank_of_char hev hchar).1
  clear h
  induction chars with
  | nil => rfl
  | cons ev rest ih =>
    have hrest := ih fun e he => heach e (List.mem_cons_of_mem ev he)
    by_cases hchar : ev.char = [' ']
    · simpa [hchar, heach ev (by simp) hchar] using hrest
    · simp [hchar, hrest]

theorem DecodeState.Finished.accounted {F : Type} [PyFloat F] {d : DecodeState F}
    (h : d.Finished) : d.result.Accounted := by
  refine ⟨?_, ?_, h.text, ?_, ?_⟩
  · rw [h.marks, List.filter_eq_self.mpr]
    · rfl
    · intro run hrun
      obtain ⟨ev, -, rfl⟩ := List.mem_map.mp hrun
      rfl
  · rw [h.spaced.flatMap_filter, h.kinds]
  · intro ev hev hchar
    exact h.spaced.head ev hev (h.spaced.isBlank_of_char (List.mem_of_mem_head? hev) hchar)
  · refine h.spaced.apart.imp_of_mem_imp ?_
    rintro a b ha hb hab ⟨hca, hcb⟩
    exact hab ⟨h.spaced.isBlank_of_char ha hca, h.spaced.isBlank_of_char hb hcb⟩

/-! ## The clock -/

namespace DecodeState

theorem commit_timed {d d' : DecodeState ℚ} {cand : Bool} {tS : ℚ} {out : List (CharEvent ℚ)}
    (hb : Booked d) (h : Timed d) (hclock : d.state = true → d.runStartS < tS)
    (hok : commit cand tS d = .ok (out, d')) : Timed d' := by
  cases hs : d.state with
  | true =>
    simp only [commit, hs, ite_true, bind_eq_ok, Except.ok.injEq, Prod.exists,
      Prod.mk.injEq] at hok
    obtain ⟨out', e, hend, -, rfl⟩ := hok
    have hdur : 0 < tS - d.runStartS := sub_pos.mpr (hclock hs)
    exact (onMarkEnd_timed hb h hdur hend).congr rfl
  | false =>
    simp only [commit, hs, Bool.false_eq_true, ite_false, bind_eq_ok, Except.ok.injEq,
      Prod.exists, Prod.mk.injEq] at hok
    obtain ⟨out', e, hend, -, rfl⟩ := hok
    exact (onSpaceEnd_timed h hend).congr rfl

theorem step_timed {log10 : ℚ → ℚ} {mag tS : ℚ} {d d' : DecodeState ℚ}
    {out : List (CharEvent ℚ)} (hs : Sound d) (h : Timed d)
    (hclock : d.state = true → d.runStartS < tS)
    (hok : step log10 mag tS d = .ok (out, d')) : Timed d' := by
  simp only [step, bind_eq_ok, Prod.exists] at hok
  obtain ⟨lv, e, hlv, hdeb⟩ := hok
  obtain ⟨hbooks, hgate⟩ := levels_keeps hlv
  simp only [gate, Prod.mk.injEq] at hgate
  have hb : Booked e := hs.toBooked.congr hbooks
  have ht : Timed e := h.congr hbooks
  have hc : e.state = true → e.runStartS < tS := by
    rw [hgate.2.2.2.1, hgate.2.2.2.2.2.2.1]
    exact hclock
  by_cases hcand : candidate lv e = e.state
  · rw [debounce_of_eq hcand, Except.ok.injEq, Prod.mk.injEq] at hdeb
    exact hdeb.2 ▸ ht.congr rfl
  · have hbooked : Booked (recount (candidate lv e) e) := hb.congr rfl
    have hcounted : Timed (recount (candidate lv e) e) := ht.congr rfl
    rw [debounce_of_ne hcand] at hdeb
    split at hdeb
    · exact commit_timed hbooked hcounted hc hdeb
    · simp only [Except.ok.injEq, Prod.mk.injEq] at hdeb
      exact hdeb.2 ▸ hcounted

theorem closeMark_timed {d d' : DecodeState ℚ} (hb : Booked d) (h : Timed d)
    (hclock : d.state = true → d.runStartS < d.now) (hok : closeMark d = .ok d') : Timed d' := by
  unfold closeMark at hok
  split at hok
  · rename_i hs
    simp only [bind_eq_ok, Except.ok.injEq, Prod.exists] at hok
    obtain ⟨out, e, hend, rfl⟩ := hok
    have hdur : 0 < d.now - d.runStartS := sub_pos.mpr (hclock hs)
    exact (onMarkEnd_timed hb h hdur hend).congr rfl
  · exact Except.ok.inj hok ▸ h

theorem finishBoot_timed {d d' : DecodeState ℚ} {out : List (CharEvent ℚ)} (hb : Booked d)
    (h : Timed d) (hok : finishBoot d = .ok (out, d')) : Timed d' := by
  unfold finishBoot at hok
  split at hok
  · rename_i hcond
    have hstart : Timed { d with dit := some (estimateDit d.bootMarks) } := by
      refine ⟨?_, h.runs_pos⟩
      intro dit hsome
      rw [← Option.some.inj hsome]
      exact estimateDit_pos hcond.2 (h.bootMarks_pos hb)
    exact replayBoot_timed hstart rfl hok
  · simp only [Except.ok.injEq, Prod.mk.injEq] at hok
    exact hok.2 ▸ h

theorem flush_timed {d d' : DecodeState ℚ} {out : List (CharEvent ℚ)} (hs : Sound d)
    (h : Timed d) (hclock : d.state = true → d.runStartS < d.now)
    (hok : flush d = .ok (out, d')) : Timed d' := by
  obtain ⟨e, hclose, hbe, -⟩ := closeMark_booked hs
  simp only [flush, hs.unflushed, Bool.false_eq_true, ite_false, hclose, bind_eq_ok,
    Except.ok.injEq, Prod.exists, Prod.mk.injEq, exists_eq_left'] at hok
  obtain ⟨out', f, hboot, -, rfl⟩ := hok
  have hf := finishBoot_timed hbe (closeMark_timed hs.toBooked h hclock hclose) hboot
  obtain ⟨hdit, hruns, -⟩ := flushChar_keeps d.now true f
  refine ⟨?_, ?_⟩
  · intro dit hsome
    exact hf.dit_pos dit (hdit ▸ hsome)
  · intro t dur hm
    exact hf.runs_pos t dur (hruns ▸ hm)

/-- A run that is on after a block started at that block at the latest. -/
theorem runStart_gateAfter {F : Type} {d d' : DecodeState F} {cand : Bool} {tS : F}
    (h : d'.gate = gateAfter cand tS d) (hon : d'.state = true) :
    d'.fs = d.fs ∧ (d'.runStartS = tS ∨ (d.state = true ∧ d'.runStartS = d.runStartS)) := by
  simp only [gateAfter, gate] at h
  by_cases hc : cand = d.state
  · simp only [hc, ite_true, Prod.mk.injEq] at h
    exact ⟨h.1, .inr ⟨h.2.2.2.1 ▸ hon, h.2.2.2.2.2.2.1⟩⟩
  · simp only [hc, ite_false] at h
    generalize (if cand = d.cand then d.candCount + 1 else 1) = count at h
    split at h
    · simp only [Prod.mk.injEq] at h
      exact ⟨h.1, .inl h.2.2.2.2.2.2.1⟩
    · simp only [Prod.mk.injEq] at h
      exact ⟨h.1, .inr ⟨h.2.2.2.1 ▸ hon, h.2.2.2.2.2.2.1⟩⟩

end DecodeState
/-! ## Reached states -/

namespace CWDecoder

open DecodeState

variable {F S : Type} [PyFloat F]

/-- The states of a decoder that is constructed and then fed, down to single blocks. -/
inductive Reached (dsp : Dsp F S) (fs : ℕ) (c : CWConfig F) : CWDecoder F S → Prop
  | init {d} : init fs c = .ok d → Reached dsp fs c d
  | listen {d d' samples} : Reached dsp fs c d → whenAfc (afcAppend samples) d = .ok d' →
      Reached dsp fs c d'
  | block {d d' blk out} : Reached dsp fs c d → processBlock dsp d blk = .ok (out, d') →
      Reached dsp fs c d'
  | retune {d d' rest} : Reached dsp fs c d →
      whenAfc (afcMaybeRetune dsp) { d with carry := rest } = .ok d' → Reached dsp fs c d'

theorem Reached.process {dsp : Dsp F S} {fs : ℕ} {c : CWConfig F} {d d' : CWDecoder F S}
    {samples : List S} {out : List (CharEvent F)} (h : Reached dsp fs c d)
    (hproc : process dsp d samples = .ok (out, d')) : Reached dsp fs c d' := by
  simp only [CWDecoder.process, bind_eq_ok, Except.ok.injEq, Prod.exists, Prod.mk.injEq] at hproc
  obtain ⟨e, happend, out', f, hrun, g, hretune, -, rfl⟩ := hproc
  have hf : Reached dsp fs c f :=
    emitAll_invariant (fun _ _ _ _ h hblk => h.block hblk) (h.listen happend) hrun
  exact hf.retune hretune

/-- Whatever a session is fed, the decoder it flushes is a reached one. -/
theorem Reached.session {dsp : Dsp F S} {fs : ℕ} {c : CWConfig F} {chunks : List (List S)}
    {s : Session F S} (h : session dsp fs c chunks = .ok s) : Reached dsp fs c s.before := by
  obtain ⟨d, out, rest, hinit, hfeed, -⟩ := session_eq_ok h
  exact emitAll_invariant (fun _ _ _ _ h hproc => h.process hproc) (.init hinit) hfeed

theorem Reached.sound {dsp : Dsp F S} {fs : ℕ} {c : CWConfig F} {d : CWDecoder F S}
    (h : Reached dsp fs c d) : Sound d.toDecodeState := by
  induction h with
  | init hinit => exact (init_fresh hinit).sound
  | listen _ happend ih =>
    rw [(whenAfc_append_keeps happend).1]
    exact ih
  | block _ hblk ih => exact (processBlock_sound ih hblk).1
  | retune _ hretune ih =>
    obtain ⟨last, cfgTone, twTone, resultTone, rfl⟩ := whenAfc_retune_eq hretune
    exact ih.congr rfl rfl rfl

theorem finalize_accounted {dsp : Dsp F S} {fs : ℕ} {c : CWConfig F} {d : CWDecoder F S}
    (h : Reached dsp fs c d) : ∃ r d', finalize d = .ok (r, d') ∧ r.Accounted := by
  obtain ⟨rest, k, hflush, hfin, -⟩ := flush_finished h.sound
  refine ⟨k.result, { d with toDecodeState := k }, ?_, hfin.accounted⟩
  simp only [finalize, flush, hflush, bind, Except.bind]

theorem processBlock_error {dsp : Dsp F S} {d : CWDecoder F S} {blk : List S} {e : PyExc}
    (h : Sound d.toDecodeState) (hblk : processBlock dsp d blk = .error e) :
    e = .zeroDivision := by
  simp only [processBlock, bind_eq_error, reduceCtorEq, and_false, exists_false, or_false] at hblk
  exact step_error h hblk

/-! ## Positive estimates -/

/-- A reached decoder over exact time: a mark being heard has already lasted. -/
structure Running (d : CWDecoder ℚ S) : Prop where
  timed : Timed d.toDecodeState
  fs_pos : 0 < d.fs
  block_pos : 0 < d.block
  clock : d.state = true → d.runStartS < d.now

theorem now_lt {d : CWDecoder ℚ S} (h : Running d) :
    d.now < ((d.tSamples + d.block : ℕ) : ℚ) / d.fs := by
  have hfs : (0 : ℚ) < d.fs := by exact_mod_cast h.fs_pos
  have hblock : (0 : ℚ) < d.block := by exact_mod_cast h.block_pos
  change (d.tSamples : ℚ) / d.fs < _
  rw [div_lt_div_iff_of_pos_right hfs]
  push_cast
  linarith

theorem Fresh.running {fs : ℕ} {c : CWConfig ℚ} {d : CWDecoder ℚ S}
    (hwpm : ∀ w, c.expectedWpm = some w → 0 < w) (h : Fresh fs c d) : Running d := by
  have hb := h.books_eq
  simp only [books, Prod.mk.injEq] at hb
  refine ⟨⟨?_, by simp [hb.2.1]⟩, h.fs_eq ▸ h.fs_pos, h.block_pos, by simp [h.state_eq]⟩
  intro dit hdit
  rw [hb.1, initialDit, Option.bind_eq_some_iff] at hdit
  obtain ⟨w, hw, hdit⟩ := hdit
  split at hdit
  · cases hdit
  · rw [← Option.some.inj hdit]
    exact div_pos (by norm_num) (hwpm w hw)

theorem Running.block {dsp : Dsp ℚ S} {d d' : CWDecoder ℚ S} {blk : List S}
    {out : List (CharEvent ℚ)} (hs : Sound d.toDecodeState) (h : Running d)
    (hblk : processBlock dsp d blk = .ok (out, d')) : Running d' := by
  have hnow := now_lt h
  simp only [processBlock, bind_eq_ok, Except.ok.injEq, Prod.exists, Prod.mk.injEq] at hblk
  obtain ⟨out', k, hstep, -, rfl⟩ := hblk
  obtain ⟨-, -, lv, e, -, hgate⟩ := step_sound hs hstep
  have hfs := (step_keeps hs hstep).1
  refine ⟨(step_timed hs h.timed h.clock hstep).congr rfl, hfs ▸ h.fs_pos, h.block_pos, ?_⟩
  intro hon
  have hlt : k.runStartS < ((d.tSamples + d.block : ℕ) : ℚ) / d.fs := by
    rcases (runStart_gateAfter hgate hon).2 with hstart | ⟨hwas, hstart⟩
    · rw [hstart]
      exact hnow
    · rw [hstart]
      exact (h.clock hwas).trans hnow
  rwa [← hfs] at hlt

theorem Reached.running {dsp : Dsp ℚ S} {fs : ℕ} {c : CWConfig ℚ} {d : CWDecoder ℚ S}
    (hwpm : ∀ w, c.expectedWpm = some w → 0 < w) (h : Reached dsp fs c d) : Running d := by
  induction h with
  | init hinit => exact (init_fresh hinit).running hwpm
  | @listen d d' samples _ happend ih =>
    obtain ⟨hstate, -, hblock⟩ := whenAfc_append_keeps happend
    refine ⟨?_, ?_, hblock ▸ ih.block_pos, ?_⟩
    · rw [hstate]
      exact ih.timed
    · rw [hstate]
      exact ih.fs_pos
    · rw [hstate]
      exact ih.clock
  | block h hblk ih => exact ih.block h.sound hblk
  | retune _ hretune ih =>
    obtain ⟨last, cfgTone, twTone, resultTone, rfl⟩ := whenAfc_retune_eq hretune
    exact ⟨ih.timed.congr rfl, ih.fs_pos, ih.block_pos, ih.clock⟩

/-- Two marks of different length with a prior of 20 words a minute. -/
def priorSession : Except PyExc (Session ℚ ℚ) :=
  session .direct 1000 { CWConfig.defaults with expectedWpm := some 20, envSmooth := 1 }
    [magSamples [0, 1, 1, 0, 0], magSamples [0, 1]]

end CWDecoder

end CwStation
