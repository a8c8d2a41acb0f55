import CwStation.Model.Decoder

/-! # Computation rules for the decoder

What each method does to the lists of the result, and what it leaves alone. -/

namespace CwStation.DecodeState

open Emit
open Morse (Code decodeSymbol)

variable {F : Type}

/-- The fields the run-to-text stage never writes. -/
def gate (d : DecodeState F) : ℕ × CWConfig F × ℕ × Bool × Bool × ℕ × F × ℕ × Bool :=
  (d.fs, d.cfg, d.tSamples, d.state, d.cand, d.candCount, d.runStartS, d.debounceN, d.flushed)

/-- `out` is exactly what was added to the characters and to the text. -/
structure Records (d : DecodeState F) (out : List (CharEvent F)) (d' : DecodeState F) :
    Prop where
  chars : d'.result.chars = d.result.chars ++ out
  text : d'.result.text = d.result.text ++ out.flatMap CharEvent.char

/-- A call of the run-to-text stage: it records its output and leaves the gate alone. -/
structure Advance (d : DecodeState F) (out : List (CharEvent F)) (d' : DecodeState F) :
    Prop extends Records d out d' where
  gate : d'.gate = d.gate

theorem Records.refl (d : DecodeState F) : Records d [] d :=
  ⟨by simp, by simp⟩

theorem Records.trans {d e f : DecodeState F} {out rest : List (CharEvent F)}
    (h : Records d out e) (h' : Records e rest f) : Records d (out ++ rest) f := by
  refine ⟨?_, ?_⟩
  · rw [h'.chars, h.chars, List.append_assoc]
  · rw [h'.text, h.text, List.flatMap_append, List.append_assoc]

theorem Advance.refl (d : DecodeState F) : Advance d [] d :=
  ⟨.refl d, rfl⟩

theorem Advance.trans {d e f : DecodeState F} {out rest : List (CharEvent F)}
    (h : Advance d out e) (h' : Advance e rest f) : Advance d (out ++ rest) f :=
  ⟨h.toRecords.trans h'.toRecords, h'.gate.trans h.gate⟩

/-! ## Elements and characters -/

variable [PyFloat F]

theorem addElement_of_dit {d : DecodeState F} {dit : F} (h : d.dit = some dit) (t dur : F) :
    addElement t dur d = .ok { d with
      dit := some (adaptDit dit dur)
      wpm := currentWpm { d with dit := some (adaptDit dit dur) }
      curStart := if d.cur = [] then t else d.curStart
      cur := d.cur ++ [elementKind dit dur]
      result := { d.result with
        elements := d.result.elements ++
          [⟨elementKind dit dur, PyFloat.round t 4, PyFloat.round (dur * PyFloat.lit 1000) 2⟩] } } := by
  simp only [addElement, h]
  rfl

theorem flushCur_nil {d : DecodeState F} (h : d.cur = []) (t : F) :
    flushCur t d = ([], d) := by
  simp [flushCur, h]

theorem flushCur_advance (t : F) (d : DecodeState F) :
    Advance d (flushCur t d).1 (flushCur t d).2 := by
  unfold flushCur
  split
  · exact .refl d
  · exact ⟨⟨rfl, by simp⟩, rfl⟩

theorem flushWord_advance (t : F) (d : DecodeState F) :
    Advance d (flushWord t d).1 (flushWord t d).2 := by
  unfold flushWord
  split
  · exact .refl d
  · exact ⟨⟨rfl, by simp⟩, rfl⟩

theorem flushChar_true (t : F) (d : DecodeState F) :
    flushChar t true d =
      ((flushCur t d).1 ++ (flushWord t (flushCur t d).2).1,
        (flushWord t (flushCur t d).2).2) := rfl

theorem flushChar_advance (t : F) (word : Bool) (d : DecodeState F) :
    Advance d (flushChar t word d).1 (flushChar t word d).2 := by
  cases word with
  | false => exact flushCur_advance t d
  | true =>
    rw [flushChar_true]
    exact (flushCur_advance t d).trans (flushWord_advance t _)

/-- Flushing touches neither the dit, nor the boot buffers, nor elements and key runs. -/
theorem flushChar_keeps (t : F) (word : Bool) (d : DecodeState F) :
    (flushChar t word d).2.dit = d.dit ∧
    (flushChar t word d).2.bootRuns = d.bootRuns ∧
    (flushChar t word d).2.bootMarks = d.bootMarks ∧
    (flushChar t word d).2.result.elements = d.result.elements ∧
    (flushChar t word d).2.result.keyRuns = d.result.keyRuns := by
  have hcur : ∀ d : DecodeState F, (flushCur t d).2.dit = d.dit ∧
      (flushCur t d).2.bootRuns = d.bootRuns ∧ (flushCur t d).2.bootMarks = d.bootMarks ∧
      (flushCur t d).2.result.elements = d.result.elements ∧
      (flushCur t d).2.result.keyRuns = d.result.keyRuns := by
    intro d
    unfold flushCur
    split <;> simp
  have hword : ∀ d : DecodeState F, (flushWord t d).2.dit = d.dit ∧
      (flushWord t d).2.bootRuns = d.bootRuns ∧ (flushWord t d).2.bootMarks = d.bootMarks ∧
      (flushWord t d).2.result.elements = d.result.elements ∧
      (flushWord t d).2.result.keyRuns = d.result.keyRuns := by
    intro d
    unfold flushWord
    split <;> simp
  cases word with
  | false => exact hcur d
  | true =>
    rw [flushChar_true]
    have h := hword (flushCur t d).2
    simpa only [hcur d] using h

/-- Nothing is pending after a flush. -/
theorem flushChar_cur (t : F) (word : Bool) (d : DecodeState F) :
    (flushChar t word d).2.cur = [] := by
  have hcur : (flushCur t d).2.cur = [] := by
    unfold flushCur
    split
    · assumption
    · rfl
  have hword : ∀ d : DecodeState F, (flushWord t d).2.cur = d.cur := by
    intro d
    unfold flushWord
    split <;> rfl
  cases word with
  | false => exact hcur
  | true =>
    rw [flushChar_true]
    exact (hword _).trans hcur

/-- With a known dit a gap either does nothing or flushes the pending character. -/
theorem spaceLogic_of_dit {d : DecodeState F} {dit : F} (h : d.dit = some dit) (dur t : F) :
    spaceLogic dur t d =
      .ok (if dur < PyFloat.lit 2 * dit then ([], d)
        else flushChar t (decide ¬ dur < PyFloat.lit 5 * dit) d) := by
  simp only [spaceLogic, h]
  split
  · rfl
  · split <;> simp_all

theorem spaceLogic_keeps {d d' : DecodeState F} {dit dur t : F} {out : List (CharEvent F)}
    (h : d.dit = some dit) (hok : spaceLogic dur t d = .ok (out, d')) :
    d'.dit = some dit ∧ d'.bootRuns = d.bootRuns := by
  rw [spaceLogic_of_dit h, Except.ok.injEq] at hok
  split at hok
  · cases hok
    exact ⟨h, rfl⟩
  · obtain ⟨hdit, hruns, -⟩ := flushChar_keeps t (decide ¬dur < PyFloat.lit 5 * dit) d
    rw [hok] at hdit hruns
    exact ⟨hdit.trans h, hruns⟩

/-! ## Ends of marks -/

theorem onMarkEnd_of_none {d : DecodeState F} (h : d.dit = none) (t dur : F) :
    onMarkEnd t dur d =
      if (bufferMark t dur (recordMark t dur d)).cfg.bootMarks ≤
          (bufferMark t dur (recordMark t dur d)).bootMarks.length then
        replayBoot { bufferMark t dur (recordMark t dur d) with
          dit := some (estimateDit (bufferMark t dur (recordMark t dur d)).bootMarks) }
      else .ok ([], bufferMark t dur (recordMark t dur d)) := by
  have hrec : (recordMark t dur d).dit = none := h
  simp only [onMarkEnd, hrec]

theorem onMarkEnd_of_dit {d : DecodeState F} {dit : F} (h : d.dit = some dit) (t dur : F) :
    onMarkEnd t dur d = (addElement t dur (recordMark t dur d)).map fun d => ([], d) := by
  have hrec : (recordMark t dur d).dit = some dit := h
  simp only [onMarkEnd, hrec]
  exact bind_pure_comp _ _

/-! ## The envelope of a block -/

/-- `self._env` after a block. -/
def envAfter (mag : F) (d : DecodeState F) : F :=
  match d.env with
  | none => mag
  | some env => env + d.cfg.envSmooth * (mag - env)

/-- The trackers a block starts from. -/
def trackers (e : F) (d : DecodeState F) : F × F :=
  match d.peak, d.floor with
  | some peak, some floor => (peak, floor)
  | _, _ => (e, e)

/-- `self._peak` after a block. -/
def peakAfter (mag : F) (d : DecodeState F) : F :=
  let e := envAfter mag d
  let peak := (trackers e d).1
  if peak < e then e else peak + d.cfg.peakRelease * (e - peak)

/-- `self._floor` after a block. -/
def floorAfter (mag : F) (d : DecodeState F) : F :=
  let e := envAfter mag d
  let floor := (trackers e d).2
  if e < floor then e else floor + d.cfg.floorRise * (e - floor)

/-- `rng`. -/
def spread (mag : F) (d : DecodeState F) : F :=
  PyFloat.max (peakAfter mag d - floorAfter mag d) (PyFloat.lit (1 / 1000000000))

/-- `thr`. -/
def threshold (mag : F) (d : DecodeState F) : F :=
  floorAfter mag d + PyFloat.lit (1 / 2) * spread mag d

/-- What `levels` returns once the division has gone well. -/
def levelled (log10 : F → F) (mag tS ratio : F) (d : DecodeState F) : Levels F × DecodeState F :=
  let snr := PyFloat.lit 10 * log10 ratio
  ({ e := envAfter mag d
     hi := threshold mag d + d.cfg.hysteresis * spread mag d
     lo := threshold mag d - d.cfg.hysteresis * spread mag d
     squelched := decide (PyFloat.lit 0 < d.cfg.squelchDb) && decide (snr < d.cfg.squelchDb) },
   { d with
     env := some (envAfter mag d), peak := some (peakAfter mag d), floor := some (floorAfter mag d)
     snr
     result := { d.result with
       envelopeT := d.result.envelopeT ++ [PyFloat.round tS 4]
       envelopeMag := d.result.envelopeMag ++
         [PyFloat.round ((envAfter mag d - floorAfter mag d) / spread mag d) 4]
       envelopeThr := d.result.envelopeThr ++ [PyFloat.lit (1 / 2)] } })

@[simp] theorem levelled_e (log10 : F → F) (mag tS ratio : F) (d : DecodeState F) :
    (levelled log10 mag tS ratio d).1.e = envAfter mag d := rfl

@[simp] theorem levelled_state (log10 : F → F) (mag tS ratio : F) (d : DecodeState F) :
    (levelled log10 mag tS ratio d).2.state = d.state := rfl

@[simp] theorem levelled_cand (log10 : F → F) (mag tS ratio : F) (d : DecodeState F) :
    (levelled log10 mag tS ratio d).2.cand = d.cand := rfl

theorem levels_eq (log10 : F → F) (mag tS : F) (d : DecodeState F) :
    levels log10 mag tS d =
      (PyFloat.divide (peakAfter mag d + PyFloat.lit (1 / 1000000000))
        (floorAfter mag d + PyFloat.lit (1 / 1000000000))).map fun ratio =>
          levelled log10 mag tS ratio d := by
  unfold levels levelled threshold spread peakAfter floorAfter trackers
  cases d.peak <;> cases d.floor <;> exact bind_pure_comp _ _

theorem levels_eq_ok {log10 : F → F} {mag tS : F} {d : DecodeState F}
    {r : Levels F × DecodeState F} (h : levels log10 mag tS d = .ok r) :
    ∃ ratio, r = levelled log10 mag tS ratio d := by
  rw [levels_eq] at h
  cases hratio : PyFloat.divide (peakAfter mag d + PyFloat.lit (1 / 1000000000))
      (floorAfter mag d + PyFloat.lit (1 / 1000000000)) with
  | error e =>
    rw [hratio] at h
    cases h
  | ok ratio =>
    rw [hratio] at h
    exact ⟨ratio, (Except.ok.inj h).symm⟩

/-! ## Blocks -/

/-- The decoder with the candidate of a block counted. -/
def recount (cand : Bool) (d : DecodeState F) : DecodeState F :=
  { d with cand, candCount := if cand = d.cand then d.candCount + 1 else 1 }

theorem debounce_of_eq {d : DecodeState F} {cand : Bool} (h : cand = d.state) (tS : F) :
    debounce cand tS d = .ok ([], { d with cand := d.state, candCount := 0 }) := by
  simp [debounce, h]

theorem debounce_of_ne {d : DecodeState F} {cand : Bool} (h : cand ≠ d.state) (tS : F) :
    debounce cand tS d =
      if (recount cand d).debounceN ≤ (recount cand d).candCount then commit cand tS (recount cand d)
      else .ok ([], recount cand d) := by
  by_cases hcand : cand = d.cand
  · subst hcand
    simp [debounce, recount, h]
  · simp [debounce, recount, h, hcand]

/-! ## What elements and characters leave alone -/

variable {d d' : DecodeState F} {out : List (CharEvent F)} {t dur tS : F} {cand : Bool}

/-- The envelope and the key runs. -/
def traces (d : DecodeState F) :=
  (d.env, d.peak, d.floor, d.result.envelopeMag, d.result.keyRuns)

theorem flushChar_traces (t : F) (word : Bool) (d : DecodeState F) :
    (flushChar t word d).2.traces = d.traces := by
  have hcur : ∀ d : DecodeState F, (flushCur t d).2.traces = d.traces := by
    intro d
    unfold flushCur
    split <;> rfl
  have hword : ∀ d : DecodeState F, (flushWord t d).2.traces = d.traces := by
    intro d
    unfold flushWord
    split <;> rfl
  cases word with
  | false => exact hcur d
  | true =>
    rw [flushChar_true]
    exact (hword _).trans (hcur d)

theorem addElement_traces (hok : addElement t dur d = .ok d') : d'.traces = d.traces := by
  cases hdit : d.dit with
  | none => simp [addElement, hdit] at hok
  | some dit =>
    rw [addElement_of_dit hdit, Except.ok.injEq] at hok
    subst hok
    rfl

theorem spaceLogic_traces (hok : spaceLogic dur t d = .ok (out, d')) : d'.traces = d.traces := by
  cases hdit : d.dit with
  | none => simp [spaceLogic, hdit] at hok
  | some dit =>
    rw [spaceLogic_of_dit hdit, Except.ok.injEq] at hok
    split at hok
    · cases hok
      rfl
    · obtain rfl : (flushChar t (decide ¬dur < PyFloat.lit 5 * dit) d).2 = d' := congrArg Prod.snd hok
      exact flushChar_traces _ _ _

theorem replayRun_traces {run : BootRun F} (hok : replayRun d run = .ok (out, d')) :
    d'.traces = d.traces := by
  obtain ⟨on, tStart, dur⟩ := run
  cases on with
  | true =>
    simp only [replayRun, bind_eq_ok, Except.ok.injEq, Prod.mk.injEq] at hok
    obtain ⟨k, hadd, -, rfl⟩ := hok
    exact addElement_traces hadd
  | false => exact spaceLogic_traces hok

theorem replayBoot_traces (hok : replayBoot d = .ok (out, d')) : d'.traces = d.traces := by
  simp only [replayBoot, bind_eq_ok, Except.ok.injEq, Prod.exists, Prod.mk.injEq] at hok
  obtain ⟨out', k, hrun, -, rfl⟩ := hok
  exact emitAll_invariant (P := fun k => k.traces = d.traces)
    (fun _ _ _ _ hk hstep => (replayRun_traces hstep).trans hk) rfl hrun

/-- The end of a mark adds its key run, whatever becomes of the mark. -/
theorem onMarkEnd_traces (hok : onMarkEnd t dur d = .ok (out, d')) :
    d'.traces = (recordMark t dur d).traces := by
  cases hd : d.dit with
  | none =>
    have hrec : (recordMark t dur d).dit = none := hd
    simp only [onMarkEnd, hrec] at hok
    split at hok
    · exact (replayBoot_traces hok).trans rfl
    · cases hok
      rfl
  | some dit =>
    have hrec : (recordMark t dur d).dit = some dit := hd
    simp only [onMarkEnd, hrec, bind_eq_ok, Except.ok.injEq, Prod.mk.injEq] at hok
    obtain ⟨k, hadd, -, rfl⟩ := hok
    exact addElement_traces hadd

theorem onSpaceEnd_traces (hok : onSpaceEnd dur d = .ok (out, d')) : d'.traces = d.traces := by
  cases hd : d.dit with
  | none =>
    simp only [onSpaceEnd, hd, Except.ok.injEq, Prod.mk.injEq] at hok
    obtain ⟨-, rfl⟩ := hok
    split <;> rfl
  | some dit =>
    simp only [onSpaceEnd, hd] at hok
    exact spaceLogic_traces hok

/-- The envelope, its trackers and what is shown of it. -/
def meters (d : DecodeState F) := (d.env, d.peak, d.floor, d.result.envelopeMag)

omit [PyFloat F] in
theorem meters_of_traces (h : d'.traces = d.traces) : d'.meters = d.meters := by
  simp only [traces, Prod.mk.injEq] at h
  simp only [meters, h]

theorem commit_meters (hok : commit cand tS d = .ok (out, d')) : d'.meters = d.meters := by
  cases hs : d.state with
  | true =>
    simp only [commit, hs, ite_true, bind_eq_ok, Except.ok.injEq, Prod.exists,
      Prod.mk.injEq] at hok
    obtain ⟨out', k, hmark, -, rfl⟩ := hok
    have heq := meters_of_traces (onMarkEnd_traces hmark)
    exact heq
  | false =>
    simp only [commit, hs, Bool.false_eq_true, ite_false, bind_eq_ok,
      Except.ok.injEq, Prod.exists, Prod.mk.injEq] at hok
    obtain ⟨out', k, hspace, -, rfl⟩ := hok
    have heq := meters_of_traces (onSpaceEnd_traces hspace)
    exact heq

theorem debounce_meters (hok : debounce cand tS d = .ok (out, d')) : d'.meters = d.meters := by
  by_cases hcand : cand = d.state
  · rw [debounce_of_eq hcand, Except.ok.injEq, Prod.mk.injEq] at hok
    obtain ⟨-, rfl⟩ := hok
    rfl
  · rw [debounce_of_ne hcand] at hok
    split at hok
    · have heq := commit_meters hok
      exact heq
    · simp only [Except.ok.injEq, Prod.mk.injEq] at hok
      obtain ⟨-, rfl⟩ := hok
      rfl

end CwStation.DecodeState
