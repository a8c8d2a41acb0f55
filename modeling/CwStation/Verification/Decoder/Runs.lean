import CwStation.Verification.Decoder.Invariant

/-! # Whole runs of the decoder: construction, `process`, `flush` -/

namespace CwStation

open Emit CharEvent

namespace DecodeState

variable {F : Type} [PyFloat F]

/-! ## The end of a stream -/

/-- The characters `flush` gets from `_on_mark_end` when the key is still down. -/
def lost (d : DecodeState F) : List (CharEvent F) :=
  if d.state then
    match onMarkEnd d.runStartS (d.now - d.runStartS) d with
    | .ok (out, _) => out
    | .error _ => []
  else []

theorem closeMark_booked {d : DecodeState F} (h : Sound d) :
    ∃ d', closeMark d = .ok d' ∧ Booked d' ∧ Records d (lost d) d' ∧
      (endsWithSpace d'.result.text = true → d'.cur ≠ []) := by
  cases hs : d.state with
  | false =>
    refine ⟨d, by simp [closeMark, hs], h.toBooked, ?_, ?_⟩
    · simpa [lost, hs] using Records.refl d
    · intro hend
      simpa [hs] using h.trailing hend
  | true =>
    obtain ⟨out, e, hok, hb, hadv, hcur⟩ :=
      onMarkEnd_booked h.toBooked d.runStartS (d.now - d.runStartS)
    refine ⟨{ e with state := false }, ?_, hb.congr rfl, ?_, hcur⟩
    · simp only [closeMark, hs, ite_true, hok, bind, Except.bind]
    · simp only [lost, hs, ite_true, hok]
      exact ⟨hadv.chars, hadv.text⟩

theorem finishBoot_booked {d : DecodeState F} (h : Booked d) :
    ∃ out d', finishBoot d = .ok (out, d') ∧ Booked d' ∧ Advance d out d' ∧ d'.bootRuns = [] := by
  unfold finishBoot
  split
  · obtain ⟨out, d', hok, hb, hadv, hdit⟩ := replayBoot_booked (F := F)
      (d := { d with dit := some (estimateDit d.bootMarks) })
      ⟨h.ledger.marks, h.ledger.kinds, h.ledger.text, h.ledger.spaced⟩ rfl
    exact ⟨out, d', hok, hb, ⟨⟨hadv.chars, hadv.text⟩, hadv.gate⟩, hb.known hdit⟩
  · rename_i hcond
    refine ⟨[], d, rfl, h, .refl d, ?_⟩
    cases hd : d.dit with
    | none =>
      rw [hd, Option.isNone_none, not_and, not_not] at hcond
      exact h.bootRuns_of_unmarked (hcond rfl)
    | some dit => exact h.known (by simp [hd])

/-- The books of a flushed decoder: nothing is pending any more, and the text has lost its
trailing blank. -/
structure Finished (d : DecodeState F) : Prop where
  marks : d.result.keyRuns = d.result.elements.map elementRun
  kinds : d.result.chars.flatMap CharEvent.morse = d.result.elements.map ElementEvent.kind
  text : d.result.text = rstrip (d.result.chars.flatMap CharEvent.char)
  spaced : Spaced d.result.chars

/-- Flushing never fails. It adds `lost d` and what it returns to the characters. -/
theorem flush_finished {d : DecodeState F} (h : Sound d) :
    ∃ rest d', flush d = .ok (rest, d') ∧ Finished d' ∧
      d'.result.chars = d.result.chars ++ lost d ++ rest ∧ d'.flushed = true := by
  obtain ⟨e, hclose, hbe, hre, -⟩ := closeMark_booked h
  obtain ⟨out, f, hboot, hbf, haf, hruns⟩ := finishBoot_booked hbe
  have hl : Ledger [] (flushChar d.now true f).2 := by
    have hl := flushChar_ledger hbf.ledger d.now true
    rwa [hruns] at hl
  have hadv := flushChar_advance d.now true f
  have hchars : (flushChar d.now true f).2.result.chars =
      d.result.chars ++ lost d ++ (out ++ (flushChar d.now true f).1) := by
    rw [hadv.chars, haf.chars, hre.chars]
    simp only [List.append_assoc]
  have hrun : flush d = .ok (out ++ (flushChar d.now true f).1,
      { (flushChar d.now true f).2 with
        result := { (flushChar d.now true f).2.result with
          text := rstrip (flushChar d.now true f).2.result.text
          wpmFinal := PyFloat.round (flushChar d.now true f).2.wpm 1 }
        flushed := true }) := by
    simp only [flush, h.unflushed, Bool.false_eq_true, ite_false, hclose, hboot, bind, Except.bind]
  refine ⟨_, _, hrun, ⟨?_, ?_, ?_, hl.spaced⟩, hchars, rfl⟩
  · simpa using hl.marks
  · simpa [flushChar_cur] using hl.kinds
  · exact congrArg rstrip hl.text

theorem flushChar_eq_nil {t : F} {d : DecodeState F} (h : (flushChar t true d).1 = []) :
    d.cur = [] ∧ (d.result.text = [] ∨ endsWithSpace d.result.text = true) := by
  rw [flushChar_true, List.append_eq_nil_iff] at h
  have hcur : d.cur = [] := by
    by_contra hne
    simp [flushCur, hne] at h
  refine ⟨hcur, ?_⟩
  have hword := h.2
  rw [flushCur_nil hcur] at hword
  by_contra hcond
  simp [flushWord, hcond] at hword

/-- A flush that finds or leaves any character adds one: at least the last blank. -/
theorem flush_grows {d d' : DecodeState F} {rest : List (CharEvent F)} (h : Sound d)
    (hok : flush d = .ok (rest, d')) :
    d.result.chars <+: d'.result.chars ∧
      (d'.result.chars ≠ [] → d.result.chars.length < d'.result.chars.length) := by
  obtain ⟨rest', d'', hok', hfin, hchars, -⟩ := flush_finished h
  rw [hok', Except.ok.injEq, Prod.mk.injEq] at hok
  obtain ⟨rfl, rfl⟩ := hok
  refine ⟨⟨lost d ++ rest', by rw [hchars, List.append_assoc]⟩, ?_⟩
  intro hne
  by_contra hlen
  rw [hchars, List.length_append, List.length_append] at hlen
  have hlost : lost d = [] := List.length_eq_zero_iff.mp (by omega)
  have hrest : rest' = [] := List.length_eq_zero_iff.mp (by omega)
  obtain ⟨e, hclose, hbe, hre, htrail⟩ := closeMark_booked h
  obtain ⟨out, f, hboot, hbf, haf, -⟩ := finishBoot_booked hbe
  simp only [flush, h.unflushed, Bool.false_eq_true, ite_false, hclose, hboot, bind, Except.bind,
    Except.ok.injEq, Prod.mk.injEq, hrest, List.append_eq_nil_iff] at hok'
  obtain ⟨⟨rfl, hlast⟩, -⟩ := hok'
  have htext : f.result.text = e.result.text := by simp [haf.text]
  obtain ⟨hcur, hnil | hspace⟩ := flushChar_eq_nil hlast
  · -- nothing was ever decoded
    have hnone : f.result.chars = [] := by
      rw [← hbf.ledger.spaced.flatMap_eq_nil, ← hbf.ledger.text, hnil]
    rw [haf.chars, hre.chars, hlost, List.append_nil, List.append_nil] at hnone
    rw [hchars, hlost, hrest, hnone] at hne
    exact hne rfl
  · -- a text that ends with a blank is continued by a pending symbol
    rw [htext] at hspace
    unfold finishBoot at hboot
    split at hboot
    · rename_i hcond
      rw [hbe.text_of_booting (Option.isNone_iff_eq_none.mp hcond.1)] at hspace
      cases hspace
    · simp only [Except.ok.injEq, Prod.mk.injEq] at hboot
      exact htrail hspace (hboot.2 ▸ hcur)

end DecodeState

/-! ## Construction and blocks -/

namespace CWDecoder

open DecodeState

variable {F S : Type} [PyFloat F]

/-- What a constructor call that returns has built. -/
structure Fresh (fs : ℕ) (c : CWConfig F) (d : CWDecoder F S) : Prop where
  fs_pos : 0 < fs
  fs_eq : d.fs = fs
  cfg_eq : d.cfg = c
  block_pos : 0 < d.block
  debounce_pos : 0 < d.debounceN
  carry_eq : d.carry = []
  tSamples_eq : d.tSamples = 0
  runStart_eq : d.runStartS = PyFloat.lit 0
  state_eq : d.state = false
  cand_eq : d.cand = false
  count_eq : d.candCount = 0
  flushed_eq : d.flushed = false
  books_eq : d.books = (initialDit c, [], [], [], [], [], [], [])

theorem init_fresh {fs : ℕ} {c : CWConfig F} {d : CWDecoder F S} (h : init fs c = .ok d) :
    Fresh fs c d := by
  simp only [init, bind_eq_ok, Except.ok.injEq] at h
  obtain ⟨block, -, twTone, htw, ratio, -, debounce, -, rfl⟩ := h
  have hpos : 0 < fs := by
    by_contra hzero
    simp [buildTwiddles, Nat.eq_zero_of_not_pos hzero] at htw
  exact {
    fs_pos := hpos, fs_eq := rfl, cfg_eq := rfl
    block_pos := by simp only; omega
    debounce_pos := by simp only; omega
    carry_eq := rfl, tSamples_eq := rfl, runStart_eq := rfl, state_eq := rfl, cand_eq := rfl
    count_eq := rfl, flushed_eq := rfl, books_eq := rfl }

theorem Fresh.sound {fs : ℕ} {c : CWConfig F} {d : CWDecoder F S} (h : Fresh fs c d) :
    Sound d.toDecodeState := by
  have hb := h.books_eq
  simp only [books, Prod.mk.injEq] at hb
  obtain ⟨-, hruns, hmarks, hcur, hchars, helements, hkeys, htext⟩ := hb
  refine ⟨⟨⟨?_, ?_, ?_, ?_⟩, ?_, ?_, ?_, ?_⟩, ?_, h.flushed_eq⟩
  · simp [hkeys, helements, hruns]
  · simp [hchars, hcur, helements]
  · simp [htext, hchars]
  · rw [hchars]
    exact .nil
  · exact fun _ => ⟨hcur, hchars, helements⟩
  · simp [hmarks, hruns]
  · exact fun _ => hruns
  · simp [hruns]
  · simp [htext, endsWithSpace]

theorem processBlock_sound {dsp : Dsp F S} {d d' : CWDecoder F S} {blk : List S}
    {out : List (CharEvent F)} (h : Sound d.toDecodeState)
    (hblk : processBlock dsp d blk = .ok (out, d')) :
    Sound d'.toDecodeState ∧ Records d.toDecodeState out d'.toDecodeState := by
  simp only [processBlock, bind_eq_ok, Except.ok.injEq, Prod.exists, Prod.mk.injEq] at hblk
  obtain ⟨out', k, hstep, rfl, rfl⟩ := hblk
  obtain ⟨hs, hr, -⟩ := step_sound h hstep
  exact ⟨hs.congr rfl rfl rfl, ⟨hr.chars, hr.text⟩⟩

theorem afcAppend_keeps {d d' : CWDecoder F S} {samples : List S}
    (h : afcAppend samples d = .ok d') :
    d'.toDecodeState = d.toDecodeState ∧ d'.carry = d.carry ∧ d'.block = d.block := by
  simp only [afcAppend, bind_eq_ok, Except.ok.injEq] at h
  obtain ⟨cap, -, rfl⟩ := h
  exact ⟨rfl, rfl, rfl⟩

/-- The decoder after a retune: only the tone and the time of the last search differ. -/
def retuned (last cfgTone twTone resultTone : F) (d : CWDecoder F S) : CWDecoder F S :=
  { d with
    afcLastS := last
    cfg := { d.cfg with toneHz := cfgTone }
    twTone
    result := { d.result with toneHz := resultTone } }

theorem afcMaybeRetune_eq {dsp : Dsp F S} {d d' : CWDecoder F S}
    (h : afcMaybeRetune dsp d = .ok d') :
    ∃ last cfgTone twTone resultTone, d' = retuned last cfgTone twTone resultTone d := by
  simp only [afcMaybeRetune] at h
  split at h
  · cases h
    exact ⟨_, _, _, _, rfl⟩
  · rw [bind_eq_ok] at h
    obtain ⟨need, -, h⟩ := h
    split at h
    · cases h
      exact ⟨_, _, _, _, rfl⟩
    · split at h
      · cases h
        exact ⟨_, _, _, _, rfl⟩
      · split at h
        · cases h
          exact ⟨_, _, _, _, rfl⟩
        · rw [bind_eq_ok] at h
          obtain ⟨tone, -, h⟩ := h
          cases h
          exact ⟨_, _, _, _, rfl⟩

theorem whenAfc_append_keeps {d d' : CWDecoder F S} {samples : List S}
    (h : whenAfc (afcAppend samples) d = .ok d') :
    d'.toDecodeState = d.toDecodeState ∧ d'.carry = d.carry ∧ d'.block = d.block := by
  unfold whenAfc at h
  split at h
  · exact afcAppend_keeps h
  · cases h
    exact ⟨rfl, rfl, rfl⟩

theorem whenAfc_retune_eq {dsp : Dsp F S} {d d' : CWDecoder F S}
    (h : whenAfc (afcMaybeRetune dsp) d = .ok d') :
    ∃ last cfgTone twTone resultTone, d' = retuned last cfgTone twTone resultTone d := by
  unfold whenAfc at h
  split at h
  · exact afcMaybeRetune_eq h
  · cases h
    exact ⟨_, _, _, _, rfl⟩

theorem process_sound {dsp : Dsp F S} {d d' : CWDecoder F S} {samples : List S}
    {out : List (CharEvent F)} (h : Sound d.toDecodeState)
    (hproc : process dsp d samples = .ok (out, d')) :
    Sound d'.toDecodeState ∧ Records d.toDecodeState out d'.toDecodeState := by
  simp only [process, bind_eq_ok, Except.ok.injEq, Prod.exists, Prod.mk.injEq] at hproc
  obtain ⟨e, happend, out', f, hrun, g, hretune, rfl, rfl⟩ := hproc
  have he := (whenAfc_append_keeps happend).1
  obtain ⟨hf, hr⟩ := emitAll_rel (P := fun d : CWDecoder F S => Sound d.toDecodeState)
    (R := fun d out d' => Records d.toDecodeState out d'.toDecodeState)
    (fun d => .refl d.toDecodeState) (fun _ _ _ _ _ => Records.trans)
    (fun d blk out d' h hb => processBlock_sound h hb) (he ▸ h) hrun
  rw [he] at hr
  obtain ⟨last, cfgTone, twTone, resultTone, rfl⟩ := whenAfc_retune_eq hretune
  exact ⟨hf.congr rfl rfl rfl, ⟨hr.chars, hr.text⟩⟩

/-- Feeding any chunks from a fresh decoder: the invariant holds, and the characters are
exactly the ones the calls returned. -/
theorem feed_sound {dsp : Dsp F S} {fs : ℕ} {c : CWConfig F} {d d' : CWDecoder F S}
    {chunks : List (List S)} {out : List (CharEvent F)} (h : Fresh fs c d)
    (hfeed : emitAll (process dsp) d chunks = .ok (out, d')) :
    Sound d'.toDecodeState ∧ d'.result.chars = out := by
  obtain ⟨hs, hr⟩ := emitAll_rel (P := fun d : CWDecoder F S => Sound d.toDecodeState)
    (R := fun d out d' => Records d.toDecodeState out d'.toDecodeState)
    (fun d => .refl d.toDecodeState) (fun _ _ _ _ _ => Records.trans)
    (fun d chunk out d' h hp => process_sound h hp) h.sound hfeed
  have hb := h.books_eq
  simp only [books, Prod.mk.injEq] at hb
  refine ⟨hs, ?_⟩
  rw [hr.chars, hb.2.2.2.2.1, List.nil_append]

/-- A stream fed in chunks and then flushed: what the calls returned, and the decoder
before and after the flush. -/
structure Session (F S : Type) where
  returned : List (CharEvent F)
  before : CWDecoder F S
  after : CWDecoder F S

def session (dsp : Dsp F S) (fs : ℕ) (c : CWConfig F) (chunks : List (List S)) :
    Except PyExc (Session F S) := do
  let d ← init fs c
  let (out, d) ← emitAll (process dsp) d chunks
  let (rest, last) ← flush d
  .ok ⟨out ++ rest, d, last⟩

theorem session_eq_ok {dsp : Dsp F S} {fs : ℕ} {c : CWConfig F} {chunks : List (List S)}
    {s : Session F S} (h : session dsp fs c chunks = .ok s) :
    ∃ d out rest, init fs c = .ok d ∧ emitAll (process dsp) d chunks = .ok (out, s.before) ∧
      flush s.before = .ok (rest, s.after) ∧ s.returned = out ++ rest := by
  simp only [session, bind_eq_ok, Except.ok.injEq, Prod.exists] at h
  obtain ⟨d, hinit, out, before, hfeed, rest, after, hflush, rfl⟩ := h
  exact ⟨d, out, rest, hinit, hfeed, hflush, rfl⟩

/-- Every session ends with finished books, and its characters are those returned by
`process`, those lost in `flush`, and those `flush` returned. -/
theorem session_finished {dsp : Dsp F S} {fs : ℕ} {c : CWConfig F} {chunks : List (List S)}
    {s : Session F S} (h : session dsp fs c chunks = .ok s) :
    Sound s.before.toDecodeState ∧ Finished s.after.toDecodeState ∧
      ∃ out rest, s.returned = out ++ rest ∧
        s.after.result.chars = out ++ lost s.before.toDecodeState ++ rest := by
  obtain ⟨d, out, rest, hinit, hfeed, hflush, hret⟩ := session_eq_ok h
  obtain ⟨hs, hchars⟩ := feed_sound (init_fresh hinit) hfeed
  obtain ⟨rest', k, hk, hfin, hafter, -⟩ := flush_finished hs
  simp only [flush, hk, bind, Except.bind, Except.ok.injEq, Prod.mk.injEq] at hflush
  obtain ⟨rfl, hlast⟩ := hflush
  rw [← hlast]
  exact ⟨hs, hfin, out, rest', hret, by rw [← hchars]; exact hafter⟩

end CWDecoder

/-- Streams whose samples are magnitudes: a block has the magnitude of its first sample.
The logarithm is cut to its integer part, and the tone search finds what it finds in
fewer than 256 samples. -/
def Dsp.direct : Dsp ℚ ℚ where
  scale x gain := x * gain
  toneMag _ _ blk := blk.headD 0
  log10 q := if q < 10 then 0 else if q < 100 then 1 else if q < 1000 then 2 else 3
  detectTonePeak _ _ _ _ := (600, 0)
  detectTone _ _ := 600

/-- The samples of a sequence of magnitudes, for blocks of the smallest size. -/
def magSamples (mags : List ℚ) : List ℚ := mags.flatMap (List.replicate 8)

end CwStation
