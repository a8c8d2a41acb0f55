import CwStation.Library.Trackers
import CwStation.Verification.Decoder.Chunking

/-! # The decode does not depend on level

What is decoded depends on the magnitudes through the candidate of each block alone, and a gain
moves the envelope and its thresholds alike. Only the signal-to-noise ratio tells the levels
apart, and with the squelch off nothing is decided on it. -/

namespace CwStation

open Emit Blocks
open PyFloat (lit)

variable {F : Type} [PyFloat F]

/-- The character without its `snr_db`. -/
def CharEvent.withoutSnr (ev : CharEvent F) : CharEvent F :=
  { ev with snrDb := PyFloat.round (lit 0) 1 }

def DecodeResult.withoutSnr (r : DecodeResult F) : DecodeResult F :=
  { r with chars := r.chars.map CharEvent.withoutSnr }

/-- The envelope and its trackers are averages of the old and the new. No caller changes the rates
of `CWConfig()`. -/
structure CWConfig.Smooth (c : CWConfig ℚ) : Prop where
  env : 0 ≤ c.envSmooth ∧ c.envSmooth ≤ 1
  release : 0 ≤ c.peakRelease ∧ c.peakRelease ≤ 1
  rise : 0 ≤ c.floorRise ∧ c.floorRise ≤ 1

theorem CWConfig.defaults_smooth : (CWConfig.defaults : CWConfig ℚ).Smooth := by
  refine ⟨?_, ?_, ?_⟩ <;> norm_num [CWConfig.defaults]

namespace DecodeState

/-! ## What the envelope is not needed for -/

/-- The decoder without its envelope and its signal-to-noise ratio. -/
def quiet (d : DecodeState F) : DecodeState F :=
  { d with env := none, peak := none, floor := none, snr := lit 0, result := d.result.withoutSnr }

/-- What a method returns, without levels. -/
def quietly (r : Emitted F (DecodeState F)) : Emitted F (DecodeState F) :=
  (r.1.map CharEvent.withoutSnr, r.2.quiet)

variable {d d' : DecodeState F} {t dur : F}

theorem addElement_quiet (t dur : F) (d : DecodeState F) :
    addElement t dur d.quiet = (addElement t dur d).map quiet := by
  cases hdit : d.dit with
  | none => simp [addElement, quiet, hdit, Except.map]
  | some dit =>
    rw [addElement_of_dit hdit, addElement_of_dit (show d.quiet.dit = some dit from hdit)]
    rfl

theorem flushCur_quiet (t : F) (d : DecodeState F) : flushCur t d.quiet = quietly (flushCur t d) := by
  by_cases hcur : d.cur = []
  · rw [flushCur_nil hcur, flushCur_nil (show d.quiet.cur = [] from hcur)]
    rfl
  · have hquiet : ¬d.quiet.cur = [] := hcur
    unfold flushCur
    rw [if_neg hcur, if_neg hquiet]
    simp [quietly, quiet, DecodeResult.withoutSnr, CharEvent.withoutSnr]
    rfl

theorem flushWord_quiet (t : F) (d : DecodeState F) :
    flushWord t d.quiet = quietly (flushWord t d) := by
  have htext : d.quiet.result.text = d.result.text := rfl
  unfold flushWord
  rw [htext]
  split
  · rfl
  · simp [quietly, quiet, DecodeResult.withoutSnr, CharEvent.withoutSnr]

theorem flushChar_quiet (t : F) (word : Bool) (d : DecodeState F) :
    flushChar t word d.quiet = quietly (flushChar t word d) := by
  cases word with
  | false => exact flushCur_quiet t d
  | true =>
    rw [flushChar_true, flushChar_true, flushCur_quiet]
    simp only [quietly, flushWord_quiet, List.map_append]

theorem spaceLogic_quiet (dur t : F) (d : DecodeState F) :
    spaceLogic dur t d.quiet = (spaceLogic dur t d).map quietly := by
  cases hdit : d.dit with
  | none => simp [spaceLogic, quiet, hdit, Except.map]
  | some dit =>
    rw [spaceLogic_of_dit hdit, spaceLogic_of_dit (show d.quiet.dit = some dit from hdit)]
    split
    · rfl
    · rw [flushChar_quiet]
      rfl

theorem replayRun_quiet (d : DecodeState F) (run : BootRun F) :
    replayRun d.quiet run = (replayRun d run).map quietly := by
  obtain ⟨on, tStart, dur⟩ := run
  cases on with
  | true =>
    simp only [replayRun, addElement_quiet]
    cases addElement tStart dur d <;> rfl
  | false => exact spaceLogic_quiet dur (tStart + dur) d

theorem replayBoot_quiet (d : DecodeState F) :
    replayBoot d.quiet = (replayBoot d).map quietly := by
  have hrun := emitAll_map replayRun_quiet (updateWpm d) d.bootRuns
  have hstart : updateWpm d.quiet = (updateWpm d).quiet := rfl
  have hruns : d.quiet.bootRuns = d.bootRuns := rfl
  simp only [replayBoot, hstart, hruns, hrun]
  cases emitAll replayRun (updateWpm d) d.bootRuns <;> rfl

theorem onMarkEnd_quiet (t dur : F) (d : DecodeState F) :
    onMarkEnd t dur d.quiet = (onMarkEnd t dur d).map quietly := by
  cases hdit : d.dit with
  | none =>
    rw [onMarkEnd_of_none hdit, onMarkEnd_of_none (show d.quiet.dit = none from hdit)]
    by_cases hfull : (bufferMark t dur (recordMark t dur d)).cfg.bootMarks ≤
        (bufferMark t dur (recordMark t dur d)).bootMarks.length
    · rw [if_pos hfull]
      have hreplay := replayBoot_quiet { bufferMark t dur (recordMark t dur d) with
        dit := some (estimateDit (bufferMark t dur (recordMark t dur d)).bootMarks) }
      exact (if_pos hfull).trans hreplay
    · rw [if_neg hfull]
      refine (if_neg hfull).trans ?_
      simp [quietly, quiet, bufferMark, recordMark, DecodeResult.withoutSnr, Except.map]
  | some dit =>
    have hstart : recordMark t dur d.quiet = (recordMark t dur d).quiet := rfl
    rw [onMarkEnd_of_dit hdit, onMarkEnd_of_dit (show d.quiet.dit = some dit from hdit), hstart,
      addElement_quiet]
    cases addElement t dur (recordMark t dur d) <;> rfl

theorem onSpaceEnd_quiet (dur : F) (d : DecodeState F) :
    onSpaceEnd dur d.quiet = (onSpaceEnd dur d).map quietly := by
  cases hdit : d.dit with
  | none =>
    have hquiet : d.quiet.dit = none := hdit
    have hmarks : d.quiet.bootMarks = d.bootMarks := rfl
    simp only [onSpaceEnd, hdit, hquiet, hmarks]
    split <;> rfl
  | some dit =>
    have hquiet : d.quiet.dit = some dit := hdit
    simp only [onSpaceEnd, hdit, hquiet]
    exact spaceLogic_quiet dur (d.runStartS + dur) d

/-! ## Blocks and the end of the stream -/

theorem commit_quiet (cand : Bool) (tS : F) (d : DecodeState F) :
    commit cand tS d.quiet = (commit cand tS d).map quietly := by
  have hstate : d.quiet.state = d.state := rfl
  have hstart : d.quiet.runStartS = d.runStartS := rfl
  unfold commit
  simp only [hstate, hstart]
  cases d.state with
  | true =>
    simp only [ite_true, onMarkEnd_quiet]
    cases onMarkEnd d.runStartS (tS - d.runStartS) d <;> rfl
  | false =>
    simp only [Bool.false_eq_true, ite_false, onSpaceEnd_quiet]
    cases onSpaceEnd (tS - d.runStartS) d <;> rfl

theorem debounce_quiet (cand : Bool) (tS : F) (d : DecodeState F) :
    debounce cand tS d.quiet = (debounce cand tS d).map quietly := by
  by_cases hcand : cand = d.state
  · rw [debounce_of_eq hcand, debounce_of_eq (show cand = d.quiet.state from hcand)]
    rfl
  · rw [debounce_of_ne hcand, debounce_of_ne (show cand ≠ d.quiet.state from hcand)]
    by_cases hdue : (recount cand d).debounceN ≤ (recount cand d).candCount
    · rw [if_pos hdue]
      exact (if_pos hdue).trans (commit_quiet cand tS (recount cand d))
    · rw [if_neg hdue]
      exact (if_neg hdue).trans rfl

theorem closeMark_quiet (d : DecodeState F) : closeMark d.quiet = (closeMark d).map quiet := by
  have hstate : d.quiet.state = d.state := rfl
  have hstart : d.quiet.runStartS = d.runStartS := rfl
  have hnow : d.quiet.now = d.now := rfl
  unfold closeMark
  simp only [hstate, hstart, hnow]
  cases d.state with
  | true =>
    simp only [ite_true, onMarkEnd_quiet]
    cases onMarkEnd d.runStartS (d.now - d.runStartS) d <;> rfl
  | false => rfl

theorem finishBoot_quiet (d : DecodeState F) : finishBoot d.quiet = (finishBoot d).map quietly := by
  have hdit : d.quiet.dit = d.dit := rfl
  have hmarks : d.quiet.bootMarks = d.bootMarks := rfl
  unfold finishBoot
  rw [hdit, hmarks]
  split
  · exact replayBoot_quiet { d with dit := some (estimateDit d.bootMarks) }
  · rfl

theorem flush_quiet (d : DecodeState F) : flush d.quiet = (flush d).map quietly := by
  have hflushed : d.quiet.flushed = d.flushed := rfl
  have hnow : d.quiet.now = d.now := rfl
  unfold flush
  simp only [hflushed, hnow, closeMark_quiet]
  cases d.flushed with
  | true => rfl
  | false =>
    simp only [Bool.false_eq_true, ite_false]
    cases closeMark d with
    | error e => rfl
    | ok e =>
      simp only [Except.map, bind, Except.bind, finishBoot_quiet]
      cases finishBoot e with
      | error e => rfl
      | ok r =>
        simp only [quietly, flushChar_quiet, List.map_append]
        rfl

/-! ## The envelope under a gain -/

section gain

variable {g mag mag' tS ratio ratio' : ℚ} {log10 : ℚ → ℚ} {d d' : DecodeState ℚ}

/-- The second decoder is the first, but for what a gain does to the envelope and its trackers. -/
structure Amplified (g : ℚ) (d d' : DecodeState ℚ) : Prop where
  quiet : d'.quiet = d.quiet
  env : d'.env = d.env.map (g * ·)
  peak : d'.peak = d.peak.map (g * ·)
  floor : d'.floor = d.floor.map (g * ·)

theorem Amplified.fs (h : Amplified g d d') : d'.fs = d.fs := by
  have heq := congrArg DecodeState.fs h.quiet
  exact heq

theorem Amplified.tSamples (h : Amplified g d d') : d'.tSamples = d.tSamples := by
  have heq := congrArg DecodeState.tSamples h.quiet
  exact heq

theorem Amplified.cfg (h : Amplified g d d') : d'.cfg = d.cfg := by
  have heq := congrArg DecodeState.cfg h.quiet
  exact heq

theorem Amplified.state (h : Amplified g d d') : d'.state = d.state := by
  have heq := congrArg DecodeState.state h.quiet
  exact heq

theorem Amplified.cand (h : Amplified g d d') : d'.cand = d.cand := by
  have heq := congrArg DecodeState.cand h.quiet
  exact heq

theorem envAfter_amplified (h : Amplified g d d') (mag : ℚ) :
    envAfter (g * mag) d' = g * envAfter mag d := by
  unfold envAfter
  rw [h.env, h.cfg]
  cases d.env with
  | none => rfl
  | some env => exact Trackers.smooth_mul

theorem trackers_amplified (h : Amplified g d d') (e : ℚ) :
    trackers (g * e) d' = (g * (trackers e d).1, g * (trackers e d).2) := by
  unfold trackers
  rw [h.peak, h.floor]
  cases d.peak <;> cases d.floor <;> rfl

theorem peakAfter_amplified (h : Amplified g d d') (hg : 0 < g) (mag : ℚ) :
    peakAfter (g * mag) d' = g * peakAfter mag d := by
  simp only [peakAfter, envAfter_amplified h, trackers_amplified h, h.cfg]
  exact Trackers.above_mul hg

theorem floorAfter_amplified (h : Amplified g d d') (hg : 0 < g) (mag : ℚ) :
    floorAfter (g * mag) d' = g * floorAfter mag d := by
  simp only [floorAfter, envAfter_amplified h, trackers_amplified h, h.cfg]
  exact Trackers.below_mul hg

theorem spread_rat (mag : ℚ) :
    spread mag d = max (peakAfter mag d - floorAfter mag d) (1 / 1000000000) :=
  (max_def_lt _ _).symm

/-- The trackers are together, or `1e-9` apart. -/
def Clear (d : DecodeState ℚ) : Prop :=
  ∀ peak ∈ d.peak, ∀ floor ∈ d.floor, Trackers.Clear (1 / 1000000000) peak floor

instance (d : DecodeState ℚ) : Decidable d.Clear :=
  inferInstanceAs (Decidable (∀ peak ∈ d.peak, ∀ floor ∈ d.floor, _ ∨ _))

theorem hi_levelled (log10 : ℚ → ℚ) (mag tS ratio : ℚ) (d : DecodeState ℚ) :
    (levelled log10 mag tS ratio d).1.hi = floorAfter mag d +
      (1 / 2 + d.cfg.hysteresis) * max (peakAfter mag d - floorAfter mag d) (1 / 1000000000) := by
  rw [← spread_rat]
  change floorAfter mag d + 1 / 2 * spread mag d + d.cfg.hysteresis * spread mag d = _
  ring

theorem lo_levelled (log10 : ℚ → ℚ) (mag tS ratio : ℚ) (d : DecodeState ℚ) :
    (levelled log10 mag tS ratio d).1.lo = floorAfter mag d +
      (1 / 2 - d.cfg.hysteresis) * max (peakAfter mag d - floorAfter mag d) (1 / 1000000000) := by
  rw [← spread_rat]
  change floorAfter mag d + 1 / 2 * spread mag d - d.cfg.hysteresis * spread mag d = _
  ring

theorem squelched_levelled (hsquelch : d.cfg.squelchDb ≤ 0) (log10 : ℚ → ℚ) (mag tS ratio : ℚ) :
    (levelled log10 mag tS ratio d).1.squelched = false := by
  have hoff : ¬(lit 0 : ℚ) < d.cfg.squelchDb := not_lt.mpr hsquelch
  simp only [levelled, hoff, decide_false, Bool.false_and]

/-- A gain moves no level across a threshold. -/
theorem candidate_amplified (h : Amplified g d d') (hg : 0 < g) (hsmooth : d.cfg.Smooth)
    (hsquelch : d.cfg.squelchDb ≤ 0) (hclear : (levelled log10 mag tS ratio d).2.Clear)
    (hclear' : (levelled log10 (g * mag) tS ratio' d').2.Clear) :
    candidate (levelled log10 (g * mag) tS ratio' d').1 (levelled log10 (g * mag) tS ratio' d').2 =
      candidate (levelled log10 mag tS ratio d).1 (levelled log10 mag tS ratio d).2 := by
  have hbelow : floorAfter mag d ≤ envAfter mag d := Trackers.below_le hsmooth.rise.2
  have habove : envAfter mag d ≤ peakAfter mag d := Trackers.le_above hsmooth.release.2
  have hfirst := hclear _ rfl _ rfl
  have hsecond := hclear' _ rfl _ rfl
  rw [peakAfter_amplified h hg, floorAfter_amplified h hg] at hsecond
  have hε : (0 : ℚ) < 1 / 1000000000 := by norm_num
  have hup : (levelled log10 (g * mag) tS ratio' d').1.hi < envAfter (g * mag) d' ↔
      (levelled log10 mag tS ratio d).1.hi < envAfter mag d := by
    rw [hi_levelled, hi_levelled, h.cfg, peakAfter_amplified h hg, floorAfter_amplified h hg,
      envAfter_amplified h]
    exact Trackers.threshold_lt_mul hg hε hfirst hsecond hbelow habove
  have hdown : envAfter (g * mag) d' < (levelled log10 (g * mag) tS ratio' d').1.lo ↔
      envAfter mag d < (levelled log10 mag tS ratio d).1.lo := by
    rw [lo_levelled, lo_levelled, h.cfg, peakAfter_amplified h hg, floorAfter_amplified h hg,
      envAfter_amplified h]
    exact Trackers.lt_threshold_mul hg hε hfirst hsecond hbelow habove
  have hopen := squelched_levelled hsquelch log10 mag tS ratio
  have hopen' := squelched_levelled (h.cfg ▸ hsquelch) log10 (g * mag) tS ratio'
  simp only [candidate, levelled_e, levelled_state, levelled_cand, h.state, h.cand, hopen, hopen',
    hup, hdown]
  rfl

/-- After a block the decoders differ by the gain again. -/
theorem levelled_amplified (h : Amplified g d d') (hg : 0 < g) (hsmooth : d.cfg.Smooth)
    (hclear : (levelled log10 mag tS ratio d).2.Clear)
    (hclear' : (levelled log10 (g * mag) tS ratio' d').2.Clear) :
    Amplified g (levelled log10 mag tS ratio d).2 (levelled log10 (g * mag) tS ratio' d').2 := by
  have hbelow : floorAfter mag d ≤ envAfter mag d := Trackers.below_le hsmooth.rise.2
  have habove : envAfter mag d ≤ peakAfter mag d := Trackers.le_above hsmooth.release.2
  have hfirst := hclear _ rfl _ rfl
  have hsecond := hclear' _ rfl _ rfl
  have henv := envAfter_amplified h mag
  have hpeak := peakAfter_amplified h hg mag
  have hfloor := floorAfter_amplified h hg mag
  rw [hpeak, hfloor] at hsecond
  have hshare : (envAfter (g * mag) d' - floorAfter (g * mag) d') / spread (g * mag) d' =
      (envAfter mag d - floorAfter mag d) / spread mag d := by
    rw [spread_rat, spread_rat, henv, hpeak, hfloor]
    exact Trackers.share_mul hg (by norm_num) hfirst hsecond hbelow habove
  refine ⟨?_, ?_, ?_, ?_⟩
  · have hshown : ∀ (mag ratio : ℚ) (d : DecodeState ℚ), (levelled log10 mag tS ratio d).2.quiet =
        { d.quiet with
          result := { d.quiet.result with
            envelopeT := d.quiet.result.envelopeT ++ [PyFloat.round tS 4]
            envelopeMag := d.quiet.result.envelopeMag ++
              [PyFloat.round ((envAfter mag d - floorAfter mag d) / spread mag d) 4]
            envelopeThr := d.quiet.result.envelopeThr ++ [PyFloat.lit (1 / 2)] } } :=
      fun _ _ _ => rfl
    rw [hshown, hshown, h.quiet, hshare]
  · exact congrArg some henv
  · exact congrArg some hpeak
  · exact congrArg some hfloor

/-! ## Blocks that are heard -/

/-- Magnitudes are not negative, and neither is what follows them. -/
structure Audible (d : DecodeState ℚ) : Prop where
  smooth : d.cfg.Smooth
  env : ∀ env ∈ d.env, 0 ≤ env
  floor : ∀ floor ∈ d.floor, 0 ≤ floor

theorem Audible.envAfter_nonneg (h : Audible d) (hmag : 0 ≤ mag) : 0 ≤ envAfter mag d := by
  unfold envAfter
  cases henv : d.env with
  | none => exact hmag
  | some env => exact Trackers.smooth_nonneg h.smooth.env (h.env env henv) hmag

theorem Audible.floorAfter_nonneg (h : Audible d) (hmag : 0 ≤ mag) : 0 ≤ floorAfter mag d := by
  have he := h.envAfter_nonneg hmag
  refine Trackers.below_nonneg h.smooth.rise ?_ he
  unfold trackers
  split
  · rename_i hfloor
    exact h.floor _ hfloor
  · exact he

/-- The division of a block goes well. -/
theorem Audible.levels (h : Audible d) (hmag : 0 ≤ mag) (log10 : ℚ → ℚ) (tS : ℚ) :
    ∃ ratio, levels log10 mag tS d = .ok (levelled log10 mag tS ratio d) := by
  have hpos : floorAfter mag d + lit (1 / 1000000000) ≠ 0 := by
    have hfloor := h.floorAfter_nonneg hmag
    rw [lit_rat]
    positivity
  have hzero : PyFloat.isZero (floorAfter mag d + lit (1 / 1000000000)) = false :=
    beq_false_of_ne hpos
  rw [levels_eq, PyFloat.divide, hzero]
  exact ⟨_, rfl⟩

theorem Audible.levelled (h : Audible d) (hmag : 0 ≤ mag) :
    Audible (levelled log10 mag tS ratio d).2 := by
  refine ⟨h.smooth, ?_, ?_⟩
  · rintro env ⟨⟩
    exact h.envAfter_nonneg hmag
  · rintro floor ⟨⟩
    exact h.floorAfter_nonneg hmag

theorem Audible.congr (h : Audible d) (hcfg : d'.cfg = d.cfg) (heq : d'.meters = d.meters) :
    Audible d' := by
  simp only [meters, Prod.mk.injEq] at heq
  refine ⟨hcfg ▸ h.smooth, ?_, ?_⟩
  · rw [heq.1]
    exact h.env
  · rw [heq.2.2.1]
    exact h.floor

theorem Clear.congr (h : Clear d) (heq : d'.meters = d.meters) : Clear d' := by
  simp only [meters, Prod.mk.injEq] at heq
  rw [Clear, heq.2.1, heq.2.2.1]
  exact h

/-- A block is heard without failing. -/
theorem Audible.step (h : Audible d) (hs : Sound d) (hmag : 0 ≤ mag) (log10 : ℚ → ℚ) (tS : ℚ) :
    ∃ ratio out k, step log10 mag tS d = .ok (out, k) ∧ Audible k ∧
      debounce (DecodeState.candidate (DecodeState.levelled log10 mag tS ratio d).1
        (DecodeState.levelled log10 mag tS ratio d).2) tS
        (DecodeState.levelled log10 mag tS ratio d).2 = .ok (out, k) := by
  obtain ⟨ratio, hlevels⟩ := h.levels hmag log10 tS
  have hsound : Sound (DecodeState.levelled log10 mag tS ratio d).2 := hs.congr rfl rfl rfl
  obtain ⟨out, k, hok, -⟩ := debounce_sound hsound
    (DecodeState.candidate (DecodeState.levelled log10 mag tS ratio d).1
      (DecodeState.levelled log10 mag tS ratio d).2) tS
  have hstep : DecodeState.step log10 mag tS d = .ok (out, k) := by
    simp only [DecodeState.step, hlevels, bind, Except.bind, hok]
  exact ⟨ratio, out, k, hstep,
    (h.levelled hmag).congr (step_keeps hs hstep).2 (debounce_meters hok), hok⟩

/-- One block of two runs a gain apart. -/
theorem step_amplified (h : Amplified g d d') (hg : 0 < g) (hsquelch : d.cfg.squelchDb ≤ 0)
    (hs : Sound d) (hs' : Sound d') (ha : Audible d) (ha' : Audible d') (hmag : 0 ≤ mag)
    (log10 : ℚ → ℚ) (tS : ℚ) :
    ∃ out k out' k', step log10 mag tS d = .ok (out, k) ∧
      step log10 (g * mag) tS d' = .ok (out', k') ∧ Audible k ∧ Audible k' ∧
      (k.Clear → k'.Clear → Amplified g k k' ∧
        out'.map CharEvent.withoutSnr = out.map CharEvent.withoutSnr) := by
  obtain ⟨ratio, out, k, hstep, hk, hdebounce⟩ := ha.step hs hmag log10 tS
  obtain ⟨ratio', out', k', hstep', hk', hdebounce'⟩ :=
    ha'.step hs' (mul_nonneg hg.le hmag) log10 tS
  refine ⟨out, k, out', k', hstep, hstep', hk, hk', ?_⟩
  intro hclear hclear'
  have hmeters := debounce_meters hdebounce
  have hmeters' := debounce_meters hdebounce'
  have hlevelled : Amplified g (levelled log10 mag tS ratio d).2
      (levelled log10 (g * mag) tS ratio' d').2 :=
    levelled_amplified h hg ha.smooth (hclear.congr hmeters.symm) (hclear'.congr hmeters'.symm)
  rw [candidate_amplified h hg ha.smooth hsquelch (hclear.congr hmeters.symm)
    (hclear'.congr hmeters'.symm)] at hdebounce'
  have hquiet := debounce_quiet (candidate (levelled log10 mag tS ratio d).1
    (levelled log10 mag tS ratio d).2) tS (levelled log10 (g * mag) tS ratio' d').2
  rw [hlevelled.quiet, debounce_quiet, hdebounce, hdebounce'] at hquiet
  obtain ⟨hout, hk⟩ := Prod.mk.inj (Except.ok.inj hquiet)
  simp only [meters, Prod.mk.injEq] at hmeters hmeters'
  refine ⟨⟨hk.symm, ?_, ?_, ?_⟩, hout.symm⟩
  · rw [hmeters.1, hmeters'.1, hlevelled.env]
  · rw [hmeters.2.1, hmeters'.2.1, hlevelled.peak]
  · rw [hmeters.2.2.1, hmeters'.2.2.1, hlevelled.floor]

end gain

end DecodeState

/-! ## Runs -/

/-- Every magnitude multiplied by `g`. -/
def Dsp.amplified {S : Type} (g : ℚ) (dsp : Dsp ℚ S) : Dsp ℚ S :=
  { dsp with toneMag := fun fs tone blk => g * dsp.toneMag fs tone blk }

namespace CWDecoder

open DecodeState

variable {S : Type}

/-- The decoders behind the blocks of a run, as far as it goes. -/
def afterBlocks (dsp : Dsp ℚ S) : CWDecoder ℚ S → List (List S) → List (CWDecoder ℚ S)
  | _, [] => []
  | d, blk :: rest =>
      match processBlock dsp d blk with
      | .error _ => []
      | .ok (_, d) => d :: afterBlocks dsp d rest

variable {dsp : Dsp ℚ S} {g : ℚ} {fs : ℕ} {c : CWConfig ℚ} {d d' : CWDecoder ℚ S}

/-- Two decoders that hear the same stream a gain apart. -/
structure Alike (g : ℚ) (d d' : CWDecoder ℚ S) : Prop where
  amplified : Amplified g d.toDecodeState d'.toDecodeState
  block : d'.block = d.block
  twTone : d'.twTone = d.twTone

/-- A decoder that can hear any block with the squelch off. -/
structure Ready (d : CWDecoder ℚ S) : Prop where
  sound : Sound d.toDecodeState
  audible : Audible d.toDecodeState
  squelch : d.cfg.squelchDb ≤ 0

theorem Ready.block {k : DecodeState ℚ} {out : List (CharEvent ℚ)} {log10 : ℚ → ℚ}
    {mag tS : ℚ} (h : Ready d) (hstep : step log10 mag tS d.toDecodeState = .ok (out, k))
    (hk : Audible k) (n : ℕ) : Ready { d with toDecodeState := { k with tSamples := n } } where
  sound := (step_sound h.sound hstep).1.congr rfl rfl rfl
  audible := hk.congr rfl rfl
  squelch := (step_keeps h.sound hstep).2 ▸ h.squelch

theorem processBlock_amplified (hg : 0 < g) (hmag : ∀ fs tone blk, 0 ≤ dsp.toneMag fs tone blk)
    (h : Alike g d d') (hd : Ready d) (hd' : Ready d') (blk : List S) :
    ∃ out e out' e', processBlock dsp d blk = .ok (out, e) ∧
      processBlock (dsp.amplified g) d' blk = .ok (out', e') ∧ Ready e ∧ Ready e' ∧
      (e.Clear → e'.Clear → Alike g e e' ∧
        out'.map CharEvent.withoutSnr = out.map CharEvent.withoutSnr) := by
  obtain ⟨out, k, out', k', hstep, hstep', hk, hk', hboth⟩ :=
    step_amplified h.amplified hg hd.squelch hd.sound hd'.sound hd.audible hd'.audible
      (hmag d.fs d.twTone blk) dsp.log10 d.now
  have hfs := h.amplified.fs
  have hsamples := h.amplified.tSamples
  have hnow : d'.now = d.now := by rw [DecodeState.now, DecodeState.now, hfs, hsamples]
  refine ⟨out, { d with toDecodeState := { k with tSamples := d.tSamples + d.block } },
    out', { d' with toDecodeState := { k' with tSamples := d'.tSamples + d'.block } }, ?_, ?_,
    hd.block hstep hk _, hd'.block hstep' hk' _, ?_⟩
  · simp only [processBlock, hstep, bind, Except.bind]
  · have hmag' : (dsp.amplified g).toneMag d'.fs d'.twTone blk = g * dsp.toneMag d.fs d.twTone blk := by
      rw [hfs, h.twTone]
      rfl
    have hlog : (dsp.amplified g).log10 = dsp.log10 := rfl
    simp only [processBlock, hmag', hlog, hnow, hstep', bind, Except.bind]
  · intro hclear hclear'
    obtain ⟨hk, hout⟩ := hboth hclear hclear'
    refine ⟨⟨⟨?_, hk.env, hk.peak, hk.floor⟩, h.block, h.twTone⟩, hout⟩
    calc quiet { k' with tSamples := d'.tSamples + d'.block }
        = { k'.quiet with tSamples := d'.tSamples + d'.block } := rfl
      _ = { k.quiet with tSamples := d.tSamples + d.block } := by rw [hk.quiet, hsamples, h.block]
      _ = quiet { k with tSamples := d.tSamples + d.block } := rfl

/-- Two runs a gain apart that stay clear decode alike. -/
theorem blocks_amplified (hg : 0 < g) (hmag : ∀ fs tone blk, 0 ≤ dsp.toneMag fs tone blk)
    {bs : List (List S)} (h : Alike g d d') (hd : Ready d) (hd' : Ready d')
    (hclear : ∀ e ∈ afterBlocks dsp d bs, e.Clear)
    (hclear' : ∀ e ∈ afterBlocks (dsp.amplified g) d' bs, e.Clear) :
    ∃ out e out' e', emitAll (processBlock dsp) d bs = .ok (out, e) ∧
      emitAll (processBlock (dsp.amplified g)) d' bs = .ok (out', e') ∧ Ready e ∧ Ready e' ∧
      Alike g e e' ∧ out'.map CharEvent.withoutSnr = out.map CharEvent.withoutSnr := by
  induction bs generalizing d d' with
  | nil => exact ⟨[], d, [], d', rfl, rfl, hd, hd', h, rfl⟩
  | cons blk rest ih =>
    obtain ⟨first, e, first', e', hblk, hblk', he, he', hboth⟩ :=
      processBlock_amplified hg hmag h hd hd' blk
    simp only [afterBlocks, hblk, List.forall_mem_cons] at hclear
    simp only [afterBlocks, hblk', List.forall_mem_cons] at hclear'
    obtain ⟨halike, hfirst⟩ := hboth hclear.1 hclear'.1
    obtain ⟨out, last, out', last', hrun, hrun', hlast, hlast', hend, hout⟩ :=
      ih halike he he' hclear.2 hclear'.2
    refine ⟨first ++ out, last, first' ++ out', last', ?_, ?_, hlast, hlast', hend, ?_⟩
    · exact emitAll_cons_eq_ok.mpr ⟨first, e, out, hblk, hrun, rfl⟩
    · exact emitAll_cons_eq_ok.mpr ⟨first', e', out', hblk', hrun', rfl⟩
    · rw [List.map_append, List.map_append, hfirst, hout]

/-- The blocks a fresh decoder makes of its samples. -/
def heardBlocks (dsp : Dsp ℚ S) (d : CWDecoder ℚ S) (samples : List S) : List (List S) :=
  blocks d.block (applyGain dsp d.cfg.inputGain samples)

/-- A session of a fresh decoder runs through the blocks of all its samples. -/
theorem session_of_blocks {chunks : List (List S)} {out rest : List (CharEvent ℚ)}
    {e : CWDecoder ℚ S} {k : DecodeState ℚ} (hafc : c.afc = false) (hinit : init fs c = .ok d)
    (hrun : emitAll (processBlock dsp) d (heardBlocks dsp d chunks.flatten) = .ok (out, e))
    (hflush : e.toDecodeState.flush = .ok (rest, k)) :
    ∃ s, session dsp fs c chunks = .ok s ∧ s.returned = out ++ rest ∧ s.after.toDecodeState = k := by
  have hfresh := init_fresh hinit
  have hsteady := hfresh.steady hafc
  have hfeed : ∃ rest, emitAll (process dsp) d chunks = .ok (out, { e with carry := rest }) := by
    rw [feed_eq_process hsteady, process_of_steady hsteady, hfresh.carry_eq, List.nil_append]
    rw [heardBlocks] at hrun
    rw [hrun]
    exact ⟨_, rfl⟩
  obtain ⟨carry, hfeed⟩ := hfeed
  have hsession : session dsp fs c chunks = .ok ⟨out ++ rest, { e with carry },
      { e with toDecodeState := k, carry }⟩ := by
    simp only [session, hinit, hfeed, flush, hflush, bind, Except.bind]
  exact ⟨_, hsession, rfl, rfl⟩

/-- Whatever the gain, a session decodes the same: it ends with the same result but for the
signal-to-noise ratios, and at the same speed. -/
theorem session_amplified (hg : 0 < g) (hmag : ∀ fs tone blk, 0 ≤ dsp.toneMag fs tone blk)
    (hsmooth : c.Smooth) (hsquelch : c.squelchDb ≤ 0) (hafc : c.afc = false)
    (hinit : init fs c = .ok d) (chunks : List (List S))
    (hclear : ∀ e ∈ afterBlocks dsp d (heardBlocks dsp d chunks.flatten), e.Clear)
    (hclear' : ∀ e ∈ afterBlocks (dsp.amplified g) d (heardBlocks dsp d chunks.flatten), e.Clear) :
    ∃ s s', session dsp fs c chunks = .ok s ∧ session (dsp.amplified g) fs c chunks = .ok s' ∧
      s'.after.result.withoutSnr = s.after.result.withoutSnr ∧ s'.after.wpm = s.after.wpm ∧
      s'.returned.map CharEvent.withoutSnr = s.returned.map CharEvent.withoutSnr := by
  have hfresh := init_fresh hinit
  have hnone : d.env = none ∧ d.peak = none ∧ d.floor = none := by
    simp only [init, bind_eq_ok, Except.ok.injEq] at hinit
    obtain ⟨block, -, twTone, -, ratio, -, debounce, -, rfl⟩ := hinit
    exact ⟨rfl, rfl, rfl⟩
  obtain ⟨henv, hpeak, hfloor⟩ := hnone
  have hready : Ready d := by
    refine ⟨hfresh.sound, ⟨hfresh.cfg_eq ▸ hsmooth, ?_, ?_⟩, hfresh.cfg_eq ▸ hsquelch⟩
    · simp [henv]
    · simp [hfloor]
  have halike : Alike g d d := by
    refine ⟨⟨rfl, ?_, ?_, ?_⟩, rfl, rfl⟩
    · rw [henv, Option.map_none]
    · rw [hpeak, Option.map_none]
    · rw [hfloor, Option.map_none]
  obtain ⟨out, e, out', e', hrun, hrun', he, he', hsame, hout⟩ :=
    blocks_amplified hg hmag halike hready hready hclear hclear'
  obtain ⟨rest, k, hflush, -⟩ := flush_finished he.sound
  obtain ⟨rest', k', hflush', -⟩ := flush_finished he'.sound
  have hquiet := flush_quiet e'.toDecodeState
  rw [hsame.amplified.quiet, flush_quiet, hflush, hflush'] at hquiet
  obtain ⟨hrest, hk⟩ := Prod.mk.inj (Except.ok.inj hquiet)
  obtain ⟨s, hs, hreturned, hafter⟩ := session_of_blocks hafc hinit hrun hflush
  obtain ⟨s', hs', hreturned', hafter'⟩ := session_of_blocks hafc hinit hrun' hflush'
  refine ⟨s, s', hs, hs', ?_, ?_, ?_⟩
  · rw [hafter, hafter']
    exact (congrArg DecodeState.result hk).symm
  · rw [hafter, hafter']
    exact (congrArg DecodeState.wpm hk).symm
  · rw [hreturned, hreturned', List.map_append, List.map_append, hout, hrest]

/-- `Dsp.direct` on the sizes of samples. -/
def sizes : Dsp ℚ ℚ := { Dsp.direct with toneMag := fun _ _ blk => |blk.headD 0| }

/-- Two marks of different length, and the same ten times as loud. -/
theorem twoMarks_amplified :
    let c : CWConfig ℚ := CWConfig.defaults
    let chunks := [magSamples [0, 1, 1, 1, 1, 0, 0, 0, 0, 0], magSamples [0, 1, 1]]
    ∃ s s', session sizes 1000 c chunks = .ok s ∧
      session (sizes.amplified 10) 1000 c chunks = .ok s' ∧
      s'.after.result.withoutSnr = s.after.result.withoutSnr := by
  intro c chunks
  have hcheck : ((init 1000 c).map fun d =>
      decide (∀ e ∈ afterBlocks sizes d (heardBlocks sizes d chunks.flatten), e.Clear) &&
      decide (∀ e ∈ afterBlocks (sizes.amplified 10) d (heardBlocks sizes d chunks.flatten),
        e.Clear)).toOption = some true := by decide +kernel
  cases hinit : init (S := ℚ) 1000 c with
  | error e => simp [hinit, Except.map, Except.toOption] at hcheck
  | ok d =>
      simp only [hinit, Except.map, Except.toOption, Option.some.injEq, Bool.and_eq_true,
        decide_eq_true_eq] at hcheck
      obtain ⟨s, s', hs, hs', hresult, -⟩ := session_amplified (g := 10) (by norm_num)
        (fun _ _ _ => abs_nonneg _) CWConfig.defaults_smooth le_rfl rfl hinit chunks
        hcheck.1 hcheck.2
      exact ⟨s, s', hs, hs', hresult⟩

end CWDecoder

end CwStation
