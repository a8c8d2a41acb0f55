import CwStation.Verification.Decoder.Runs
import CwStation.Verification.Manager.Fanout

/-! # Streaming against one shot

With automatic frequency control off, a decoder does the same whatever the chunks its
samples arrive in: the remainder it carries is the rest of the samples so far after
their whole blocks. -/

namespace CwStation

open Emit Blocks

namespace CWDecoder

open DecodeState

variable {F S : Type} [PyFloat F]

/-- A decoder between two calls of `process`, with the tone search off. -/
structure Steady (d : CWDecoder F S) : Prop where
  sound : Sound d.toDecodeState
  afc : d.cfg.afc = false
  block_pos : 0 < d.block
  carry : d.carry.length < d.block

theorem Fresh.steady {fs : ℕ} {c : CWConfig F} {d : CWDecoder F S} (h : Fresh fs c d)
    (hafc : c.afc = false) : Steady d :=
  ⟨h.sound, h.cfg_eq ▸ hafc, h.block_pos, by rw [h.carry_eq]; exact h.block_pos⟩

theorem processBlock_keeps {dsp : Dsp F S} {d d' : CWDecoder F S} {blk : List S}
    {out : List (CharEvent F)} (h : Sound d.toDecodeState)
    (hblk : processBlock dsp d blk = .ok (out, d')) : d'.cfg = d.cfg ∧ d'.block = d.block := by
  simp only [processBlock, bind_eq_ok, Except.ok.injEq, Prod.exists, Prod.mk.injEq] at hblk
  obtain ⟨out', k, hstep, rfl, rfl⟩ := hblk
  exact ⟨(step_keeps h hstep).2, rfl⟩

theorem blocks_keep {dsp : Dsp F S} {d d' : CWDecoder F S} {bs : List (List S)}
    {out : List (CharEvent F)} (h : Sound d.toDecodeState)
    (hrun : emitAll (processBlock dsp) d bs = .ok (out, d')) :
    Sound d'.toDecodeState ∧ d'.cfg = d.cfg ∧ d'.block = d.block := by
  refine emitAll_invariant
    (P := fun e : CWDecoder F S => Sound e.toDecodeState ∧ e.cfg = d.cfg ∧ e.block = d.block)
    ?_ ⟨h, rfl, rfl⟩ hrun
  rintro e blk out e' ⟨he, hcfg, hblock⟩ hblk
  obtain ⟨hcfg', hblock'⟩ := processBlock_keeps he hblk
  exact ⟨(processBlock_sound he hblk).1, hcfg'.trans hcfg, hblock'.trans hblock⟩

/-- Blocks are decoded without looking at the carried remainder. -/
theorem blocks_carry (dsp : Dsp F S) (d : CWDecoder F S) (rest : List S) (bs : List (List S)) :
    emitAll (processBlock dsp) { d with carry := rest } bs =
      (emitAll (processBlock dsp) d bs).map fun r => (r.1, { r.2 with carry := rest }) := by
  refine emitAll_comm (f := fun e : CWDecoder F S => { e with carry := rest }) ?_ d bs
  intro e blk
  unfold processBlock
  dsimp only
  cases e.toDecodeState.step dsp.log10 (dsp.toneMag e.fs e.twTone blk) e.now with
  | error err => rfl
  | ok r => rfl

/-- One call of `process` without the tone search. -/
theorem process_of_steady {dsp : Dsp F S} {d : CWDecoder F S} (h : Steady d) (samples : List S) :
    process dsp d samples =
      (emitAll (processBlock dsp) d
          (blocks d.block (d.carry ++ applyGain dsp d.cfg.inputGain samples))).map fun r =>
        (r.1, { r.2 with
          carry := remainder d.block (d.carry ++ applyGain dsp d.cfg.inputGain samples) }) := by
  unfold process
  simp only [whenAfc, h.afc, Bool.false_eq_true, ite_false, bind, Except.bind]
  cases hrun : emitAll (processBlock dsp) d
      (blocks d.block (d.carry ++ applyGain dsp d.cfg.inputGain samples)) with
  | error e => rfl
  | ok r =>
    obtain ⟨-, hcfg, hblock⟩ := blocks_keep h.sound hrun
    simp only [hcfg, h.afc, hblock, Bool.false_eq_true, ite_false, Except.map]

theorem process_steady {dsp : Dsp F S} {d d' : CWDecoder F S} {samples : List S}
    {out : List (CharEvent F)} (h : Steady d) (hproc : process dsp d samples = .ok (out, d')) :
    Steady d' ∧ d'.cfg = d.cfg ∧ d'.block = d.block := by
  rw [process_of_steady h] at hproc
  cases hrun : emitAll (processBlock dsp) d
      (blocks d.block (d.carry ++ applyGain dsp d.cfg.inputGain samples)) with
  | error e => simp [hrun, Except.map] at hproc
  | ok r =>
    simp only [hrun, Except.map, Except.ok.injEq, Prod.mk.injEq] at hproc
    obtain ⟨-, rfl⟩ := hproc
    obtain ⟨hs, hcfg, hblock⟩ := blocks_keep h.sound hrun
    refine ⟨⟨hs, ?_, ?_, ?_⟩, hcfg, hblock⟩
    · rw [hcfg]
      exact h.afc
    · rw [hblock]
      exact h.block_pos
    · rw [hblock]
      exact remainder_length_lt h.block_pos _

theorem applyGain_append (dsp : Dsp F S) (gain : F) (xs ys : List S) :
    applyGain dsp gain (xs ++ ys) = applyGain dsp gain xs ++ applyGain dsp gain ys := by
  unfold applyGain
  split
  · rfl
  · exact List.map_append

theorem process_nil {dsp : Dsp F S} {d : CWDecoder F S} (h : Steady d) :
    process dsp d [] = .ok ([], d) := by
  have hgain : applyGain dsp d.cfg.inputGain [] = [] := by
    unfold applyGain
    split <;> rfl
  rw [process_of_steady h, hgain, List.append_nil, blocks_of_length_lt h.carry,
    remainder_of_length_lt h.carry]
  rfl

/-- Two chunks in a row are one chunk. -/
theorem process_append {dsp : Dsp F S} {d : CWDecoder F S} (h : Steady d) (xs ys : List S) :
    process dsp d (xs ++ ys) = (do
      let (out, d) ← process dsp d xs
      let (rest, d) ← process dsp d ys
      .ok (out ++ rest, d)) := by
  rw [process_of_steady h, applyGain_append, ← List.append_assoc, blocks_append h.block_pos,
    remainder_append h.block_pos, emitAll_append]
  cases hproc : process dsp d xs with
  | error e =>
    rw [process_of_steady h] at hproc
    cases hrun : emitAll (processBlock dsp) d
        (blocks d.block (d.carry ++ applyGain dsp d.cfg.inputGain xs)) with
    | error e' =>
      simp only [hrun, Except.map, Except.error.injEq] at hproc
      subst hproc
      rfl
    | ok r => simp [hrun, Except.map] at hproc
  | ok r =>
    obtain ⟨hr, hcfg, hblock⟩ := process_steady h hproc
    simp only [bind, Except.bind]
    rw [process_of_steady hr, hcfg, hblock]
    rw [process_of_steady h] at hproc
    cases hrun : emitAll (processBlock dsp) d
        (blocks d.block (d.carry ++ applyGain dsp d.cfg.inputGain xs)) with
    | error e => simp [hrun, Except.map] at hproc
    | ok q =>
      simp only [hrun, Except.map, Except.ok.injEq] at hproc
      subst hproc
      simp only [blocks_carry]
      cases emitAll (processBlock dsp) q.2 (blocks d.block
          (remainder d.block (d.carry ++ applyGain dsp d.cfg.inputGain xs) ++
            applyGain dsp d.cfg.inputGain ys)) with
      | error e => rfl
      | ok last => rfl

/-- Any sequence of chunks is one chunk, empty and short ones included. -/
theorem feed_eq_process {dsp : Dsp F S} {d : CWDecoder F S} (h : Steady d)
    (chunks : List (List S)) :
    emitAll (process dsp) d chunks = process dsp d chunks.flatten := by
  induction chunks generalizing d with
  | nil => exact (process_nil h).symm
  | cons chunk rest ih =>
    rw [List.flatten_cons, process_append h, emitAll_cons]
    cases hproc : process dsp d chunk with
    | error e => rfl
    | ok r =>
      have hr := (process_steady h hproc).1
      simp only [bind, Except.bind, ih hr]

theorem session_result {dsp : Dsp F S} {fs : ℕ} {c : CWConfig F} (hafc : c.afc = false)
    (chunks : List (List S)) :
    (session dsp fs c chunks).map (fun s => s.after.result) =
      decodeArray dsp chunks.flatten fs c := by
  unfold session decodeArray
  cases hinit : init fs c with
  | error e => rfl
  | ok d =>
    simp only [bind, Except.bind, feed_eq_process ((init_fresh hinit).steady hafc)]
    cases process dsp d chunks.flatten with
    | error e => rfl
    | ok r =>
      simp only [finalize, bind, Except.bind]
      cases flush r.2 with
      | error e => rfl
      | ok last => rfl

end CWDecoder

/-! ## The live monitor -/

open AudioEngineManager CWDecoder

variable {F S : Type} [PyFloat F]

/-- Calibration splits the blocks of the source; nothing is dropped. -/
theorem calibrate_append (target : ℤ) (have' : ℕ) (blocks : List (List S)) :
    (calibrate target have' blocks).1 ++ (calibrate target have' blocks).2 = blocks := by
  induction blocks generalizing have' with
  | nil => rfl
  | cons blk rest ih =>
    unfold calibrate
    dsimp only
    split
    · rfl
    · simp only [List.cons_append, ih]

theorem settleTone_append {dsp : Dsp F S} {fs : ℕ} {blocks buffered rest : List (List S)}
    {toneHz : Option F} {calibrateS tone : F}
    (h : settleTone dsp fs blocks toneHz calibrateS = .ok (tone, buffered, rest)) :
    buffered ++ rest = blocks := by
  unfold settleTone at h
  cases toneHz with
  | some hz =>
    simp only [Except.ok.injEq, Prod.mk.injEq] at h
    obtain ⟨-, rfl, rfl⟩ := h
    rfl
  | none =>
    simp only [bind_eq_ok, Except.ok.injEq, Prod.mk.injEq] at h
    obtain ⟨target, -, -, rfl, rfl⟩ := h
    exact calibrate_append target 0 blocks

/-- The monitor is a streaming session over the blocks of its source. -/
theorem monitorLive_eq_session (dsp : Dsp F S) (fs : ℕ) (blocks : List (List S))
    (toneHz : Option F) (calibrateS : F) (expectedWpm : Option F) (config : CWConfig F) :
    monitorLive dsp fs blocks toneHz calibrateS expectedWpm config = (do
      let settled ← settleTone dsp fs blocks toneHz calibrateS
      let s ← session dsp fs { config with toneHz := settled.1, expectedWpm } blocks
      .ok { result := { s.after.result with toneHz := settled.1 }
            heard := s.returned, tone := settled.1 }) := by
  unfold monitorLive session
  cases hsettle : settleTone dsp fs blocks toneHz calibrateS with
  | error e => rfl
  | ok settled =>
    obtain ⟨tone, buffered, rest⟩ := settled
    simp only [bind, Except.bind]
    cases init fs { config with toneHz := tone, expectedWpm } with
    | error e => rfl
    | ok d =>
      have hmgr : (⟨[d], [], [[]]⟩ : AudioEngineManager (CWDecoder F S) Unit (CharEvent F)) =
        single d [[]] := rfl
      have hprocess : (demodulator dsp : AudioDemodulator (CWDecoder F S) S _).process =
        process dsp := rfl
      have hflush : (demodulator dsp : AudioDemodulator (CWDecoder F S) S _).flush =
        flush := rfl
      rw [← settleTone_append hsettle]
      simp only [emitAll_append, hmgr, pumpAll_single, hprocess, bind, Except.bind]
      cases emitAll (process dsp) d buffered with
      | error e => rfl
      | ok r =>
        simp only [Except.map, pumpAll_single, hprocess]
        cases emitAll (process dsp) r.2 rest with
        | error e => rfl
        | ok q =>
          simp only [Except.map, finalize_single, hflush]
          cases flush q.2 with
          | error e => rfl
          | ok last => simp [single, List.append_assoc]

/-- Without the tone search, feeding chunks is decoding the whole buffer, and the live
monitor decodes the audio of its source at the note it settled on. -/
theorem streaming_eq_decodeArray (dsp : Dsp F S) (fs : ℕ) (c : CWConfig F)
    (hafc : c.afc = false) :
    (∀ chunks : List (List S),
      (session dsp fs c chunks).map (fun s => s.after.result) =
        decodeArray dsp chunks.flatten fs c) ∧
    ∀ (blocks : List (List S)) (toneHz : Option F) (calibrateS : F) (expectedWpm : Option F),
      (monitorLive dsp fs blocks toneHz calibrateS expectedWpm c).map (fun run => run.result) =
        (do
          let settled ← settleTone dsp fs blocks toneHz calibrateS
          let r ← decodeArray dsp blocks.flatten fs { c with toneHz := settled.1, expectedWpm }
          .ok { r with toneHz := settled.1 }) := by
  refine ⟨session_result hafc, ?_⟩
  intro blocks toneHz calibrateS expectedWpm
  rw [monitorLive_eq_session]
  cases settleTone dsp fs blocks toneHz calibrateS with
  | error e => rfl
  | ok settled =>
      simp only [bind, Except.bind]
      rw [← session_result (c := { c with toneHz := settled.1, expectedWpm }) hafc blocks]
      cases session dsp fs { c with toneHz := settled.1, expectedWpm } blocks with
      | error e => rfl
      | ok s => rfl

/-- Three chunks, one of them empty, none of them a whole number of blocks. -/
theorem streaming_three_chunks :
    (CWConfig.defaults : CWConfig ℚ).afc = false ∧
    (session .direct 1000 .defaults [[0, 0, 1], [], magSamples [1, 1, 0]]).map
        (fun s => s.after.result) =
      decodeArray .direct ([0, 0, 1] ++ magSamples [1, 1, 0]) 1000 .defaults := by
  refine ⟨rfl, ?_⟩
  have h := (streaming_eq_decodeArray .direct 1000 .defaults rfl).1
    [[0, 0, 1], [], magSamples [1, 1, 0]]
  simpa using h

end CwStation
