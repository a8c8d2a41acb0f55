import CwStation.Verification.Bridge.Callsigns
import CwStation.Verification.Decoder.Accounts
import CwStation.Verification.Stream.Coverage

/-! # The callsigns a stream of batches has named

A batch names the calls of the completed words of the text. Finalizing strips the blank
behind the last word, so a batch sent after it does not count that word as completed:
its calls are named only if they were named otherwise. -/

namespace CwStation

open Emit Bridge

namespace ResultStreamer

variable {F : Type} [PyFloat F] {u : Unicode}

/-- Ticks of a result that no longer changes. -/
def tickAll (u : Unicode) (r : DecodeResult F) :
    ResultStreamer F → List Bool → List (Batch F) × ResultStreamer F
  | st, [] => ([], st)
  | st, force :: forces =>
      let (out, st) := tick u force r st
      let (rest, st) := tickAll u r st forces
      (out ++ rest, st)

theorem tick_calls {force : Bool} {r : DecodeResult F} {st : ResultStreamer F} {b : Batch F}
    (h : b ∈ (tick u force r st).1) :
    b.info.calls = extractCallsigns u (completed r.text) := by
  rcases tick_cases u force r st with ⟨hout, -⟩ | ⟨b', st', hdiff, hout, -⟩
  · rw [hout] at h
    cases h
  · rw [hout, List.mem_singleton] at h
    rw [h, (diff_eq_some hdiff).1]
    rfl

theorem tickAll_calls {r : DecodeResult F} {st : ResultStreamer F} {forces : List Bool}
    {b : Batch F} (h : b ∈ (tickAll u r st forces).1) :
    b.info.calls = extractCallsigns u (completed r.text) := by
  induction forces generalizing st with
  | nil => cases h
  | cons force forces ih =>
    rcases List.mem_append.mp h with h | h
    · exact tick_calls h
    · exact ih h

/-- With characters still to be sent, the ticks and the flush after them send a batch. -/
theorem tickAll_flush_ne_nil {r : DecodeResult F} {st : ResultStreamer F} (forces : List Bool)
    (h : st.chars < r.chars.length) :
    (tickAll u r st forces).1 ++ (flush u r (tickAll u r st forces).2).1 ≠ [] := by
  induction forces generalizing st with
  | nil =>
    rcases tick_cases u true r st with ⟨-, -, -, -, hnone⟩ | ⟨b, st', -, hout, -⟩
    · have hdrop := (diff_eq_none.mp (hnone rfl)).1
      rw [List.drop_eq_nil_iff] at hdrop
      omega
    · change [] ++ (tick u true r st).1 ≠ []
      simp [hout]
  | cons force forces ih =>
    rcases tick_cases u force r st with ⟨hout, hchars, -⟩ | ⟨b, st', -, hout, -⟩
    · have hih := @ih (tick u force r st).2 (by rwa [hchars])
      simpa [tickAll, hout] using hih
    · simp [tickAll, hout]

end ResultStreamer

namespace CWDecoder

open DecodeState ResultStreamer

variable {F S : Type} [PyFloat F] {dsp : Dsp F S} {u : Unicode} {fs : ℕ} {c : CWConfig F}

/-- A decoder that is fed while a streamer on its result is ticked. The log has each batch
sent, with the text at that moment. -/
inductive Streamed (dsp : Dsp F S) (u : Unicode) (fs : ℕ) (c : CWConfig F) :
    CWDecoder F S → ResultStreamer F → List (Str × Batch F) → Prop
  | start {d : CWDecoder F S} (intervalS : F) (source feedId : Str) : Reached dsp fs c d →
      Streamed dsp u fs c d (.init intervalS source feedId) []
  | feed {d d' : CWDecoder F S} {st : ResultStreamer F} {log : List (Str × Batch F)}
      {samples : List S} {out : List (CharEvent F)} : Streamed dsp u fs c d st log →
      process dsp d samples = .ok (out, d') → Streamed dsp u fs c d' st log
  | tick {d : CWDecoder F S} {st : ResultStreamer F} {log : List (Str × Batch F)}
      (force : Bool) : Streamed dsp u fs c d st log →
      Streamed dsp u fs c d (tick u force d.result st).2
        (log ++ (tick u force d.result st).1.map fun b => (d.result.text, b))

/-- What holds of a streamed decoder: the cursor is inside the characters, and each batch
named the calls of the completed words of a front of the text. -/
structure Named (u : Unicode) (d : CWDecoder F S) (st : ResultStreamer F)
    (log : List (Str × Batch F)) : Prop where
  cursor : st.chars ≤ d.result.chars.length
  text : ∀ T b, (T, b) ∈ log → ∃ front, front <+: d.result.chars ∧
    T = front.flatMap CharEvent.char
  calls : ∀ T b, (T, b) ∈ log → b.info.calls = extractCallsigns u (completed T)

theorem Streamed.reached {d : CWDecoder F S} {st : ResultStreamer F}
    {log : List (Str × Batch F)} (h : Streamed dsp u fs c d st log) : Reached dsp fs c d := by
  induction h with
  | start _ _ _ hreached => exact hreached
  | feed _ hproc ih => exact ih.process hproc
  | tick _ _ ih => exact ih

theorem Streamed.named {d : CWDecoder F S} {st : ResultStreamer F} {log : List (Str × Batch F)}
    (h : Streamed dsp u fs c d st log) : Named u d st log := by
  induction h with
  | start => exact ⟨Nat.zero_le _, by simp, by simp⟩
  | @feed d d' st log samples out h hproc ih =>
    have hchars := (process_sound h.reached.sound hproc).2.chars
    refine ⟨?_, ?_, ih.calls⟩
    · rw [hchars, List.length_append]
      exact ih.cursor.trans (Nat.le_add_right _ _)
    · intro T b hmem
      obtain ⟨front, hfront, rfl⟩ := ih.text T b hmem
      exact ⟨front, hfront.trans ⟨out, hchars.symm⟩, rfl⟩
  | @tick d st log force h ih =>
    refine ⟨?_, ?_, ?_⟩
    · rcases tick_cases u force d.result st with ⟨-, hchars, -⟩ | ⟨b, st', hdiff, -, hchars, -⟩
      · rw [hchars]
        exact ih.cursor
      · rw [hchars, (diff_eq_some hdiff).2.1]
    · intro T b hmem
      rcases List.mem_append.mp hmem with hmem | hmem
      · exact ih.text T b hmem
      · obtain ⟨b', -, heq⟩ := List.mem_map.mp hmem
        cases heq
        exact ⟨_, List.prefix_rfl, h.reached.sound.ledger.text⟩
    · intro T b hmem
      rcases List.mem_append.mp hmem with hmem | hmem
      · exact ih.calls T b hmem
      · obtain ⟨b', hb', heq⟩ := List.mem_map.mp hmem
        cases heq
        exact tick_calls hb'

/-- The first word counts as completed from its first character on. -/
theorem completed_of_not_mem {T : Str} (h : ' ' ∉ T) : completed T = T := by
  have hend : endsWithSpace T = false := by
    rw [endsWithSpace, beq_eq_false_iff_ne]
    intro hlast
    exact h (List.mem_of_getLast? hlast)
  rw [completed, hend, if_neg Bool.false_ne_true, beforeLastSpace_of_not_mem h]

/-- A batch sent at a text with a blank names only calls in front of the last word. -/
theorem calls_before_last_word {T text call : Str} (hT : T <+: text) (hspace : ' ' ∈ T)
    (hcall : call ∈ extractCallsigns u (completed T)) :
    call ∈ extractCallsigns u (beforeLastSpace text) := by
  obtain ⟨more, rfl⟩ := hT
  by_cases hend : endsWithSpace T = true
  · rw [completed, if_pos hend] at hcall
    obtain ⟨front, rfl⟩ : ∃ front, T = front ++ [' '] := by
      rw [endsWithSpace, beq_iff_eq, List.getLast?_eq_some_iff] at hend
      exact hend
    rw [List.append_assoc]
    exact extractCallsigns_beforeLastSpace (extractCallsigns_of_append_space hcall)
  · rw [completed, if_neg hend] at hcall
    obtain ⟨a, b, rfl, hb⟩ := exists_last_space hspace
    rw [beforeLastSpace_append hb] at hcall
    rw [List.append_assoc, List.cons_append]
    exact extractCallsigns_beforeLastSpace hcall

/-- What finalizing does to a streamed decoder: the text ends with a word, and if there is
any, characters are still to be sent and every text of the log is a front of it. -/
theorem Named.finalize {d d' : CWDecoder F S} {st : ResultStreamer F}
    {log : List (Str × Batch F)} {r : DecodeResult F} (hs : Sound d.toDecodeState)
    (h : Named u d st log) (hfin : finalize d = .ok (r, d')) :
    completed r.text = beforeLastSpace r.text ∧ (r.text ≠ [] → st.chars < r.chars.length ∧
      ∀ T b, (T, b) ∈ log → T <+: r.text) := by
  simp only [CWDecoder.finalize, flush, bind_eq_ok, Except.ok.injEq, Prod.exists,
    Prod.mk.injEq] at hfin
  obtain ⟨out, e, ⟨out', k, hflush, -, rfl⟩, rfl, -⟩ := hfin
  obtain ⟨rest', k', hflush', hdone, -, -⟩ := flush_finished hs
  rw [hflush, Except.ok.injEq, Prod.mk.injEq] at hflush'
  obtain ⟨-, rfl⟩ := hflush'
  obtain ⟨hpre, hgrows⟩ := flush_grows hs hflush
  refine ⟨?_, ?_⟩
  · change completed k.result.text = beforeLastSpace k.result.text
    rw [completed, hdone.text, endsWithSpace_rstrip, if_neg Bool.false_ne_true]
  · intro htext
    change k.result.text ≠ [] at htext
    have hchars : k.result.chars ≠ [] := by
      intro hnil
      rw [hdone.text, hnil] at htext
      exact htext rfl
    have hlen := hgrows hchars
    refine ⟨h.cursor.trans_lt hlen, ?_⟩
    intro T b hmem
    obtain ⟨front, hfront, rfl⟩ := h.text T b hmem
    change _ <+: k.result.text
    rw [hdone.text]
    exact hdone.spaced.prefix_rstrip (hfront.trans hpre) (hfront.length_le.trans_lt hlen)

/-- After finalizing and flushing, every call of the text has been named exactly when the
last word adds none, or adds only calls that a batch named before the first blank. -/
theorem finalized_calls_named_iff {d d' : CWDecoder F S} {st : ResultStreamer F}
    {log : List (Str × Batch F)} {r : DecodeResult F} (h : Streamed dsp u fs c d st log)
    (hfin : finalize d = .ok (r, d')) (forces : List Bool) :
    (∀ call ∈ extractCallsigns u r.text,
      ∃ b ∈ log.map Prod.snd ++ ((tickAll u r st forces).1 ++
        (ResultStreamer.flush u r (tickAll u r st forces).2).1), call ∈ b.info.calls) ↔
    ∀ call ∈ extractCallsigns u r.text, call ∈ extractCallsigns u (beforeLastSpace r.text) ∨
      ∃ T b, (T, b) ∈ log ∧ ' ' ∉ T ∧ call ∈ extractCallsigns u T := by
  have hnamed := h.named
  obtain ⟨hcompleted, hfinal⟩ := hnamed.finalize h.reached.sound hfin
  have hlate : ∀ b ∈ (tickAll u r st forces).1 ++
      (ResultStreamer.flush u r (tickAll u r st forces).2).1,
      b.info.calls = extractCallsigns u (beforeLastSpace r.text) := by
    intro b hb
    rw [← hcompleted]
    rcases List.mem_append.mp hb with hb | hb
    · exact tickAll_calls hb
    · exact tick_calls hb
  have htext : ∀ call ∈ extractCallsigns u r.text, r.text ≠ [] := by
    intro call hcall hnil
    rw [hnil] at hcall
    cases hcall
  constructor
  · intro hall call hcall
    obtain ⟨b, hb, hin⟩ := hall call hcall
    rcases List.mem_append.mp hb with hb | hb
    · obtain ⟨⟨T, b'⟩, hmem, rfl⟩ := List.mem_map.mp hb
      rw [hnamed.calls T b' hmem] at hin
      by_cases hspace : ' ' ∈ T
      · exact .inl (calls_before_last_word ((hfinal (htext call hcall)).2 T b' hmem) hspace hin)
      · refine .inr ⟨T, b', hmem, hspace, ?_⟩
        rwa [completed_of_not_mem hspace] at hin
    · rw [hlate b hb] at hin
      exact .inl hin
  · intro hall call hcall
    rcases hall call hcall with hin | ⟨T, b, hmem, hspace, hin⟩
    · obtain ⟨b, hb⟩ := List.exists_mem_of_ne_nil _
        (tickAll_flush_ne_nil (u := u) forces (hfinal (htext call hcall)).1)
      exact ⟨b, List.mem_append_right _ hb, by rwa [hlate b hb]⟩
    · refine ⟨b, List.mem_append_left _ (List.mem_map.mpr ⟨(T, b), hmem, rfl⟩), ?_⟩
      rwa [hnamed.calls T b hmem, completed_of_not_mem hspace]

theorem session_finalize {chunks : List (List S)} {s : Session F S}
    (h : session dsp fs c chunks = .ok s) : finalize s.before = .ok (s.after.result, s.after) := by
  obtain ⟨d, out, rest, -, -, hflush, -⟩ := session_eq_ok h
  simp only [finalize, hflush, bind, Except.bind]

/-- One block to the dit, and an envelope without memory. -/
def fastConfig : CWConfig ℚ :=
  { CWConfig.defaults with
    expectedWpm := some 150, envSmooth := 1, peakRelease := 0, floorRise := 0 }

/-- `E EE5E` in perfect timing. -/
def twoWordSession : Except PyExc (Session ℚ ℚ) :=
  session .direct 1000 fastConfig
    [magSamples ([0, 1] ++ List.replicate 7 0 ++ [1, 0, 0, 0, 1, 0, 0, 0] ++
      [1, 0, 1, 0, 1, 0, 1, 0, 1] ++ [0, 0, 0, 1])]

/-- The call is in the final text, and the only batch names no call. -/
theorem twoWordSession_call_unnamed :
    ∃ d st log r d', Streamed .direct .ascii 1000 fastConfig d st log ∧
      finalize d = .ok (r, d') ∧
      ¬ ∀ call ∈ extractCallsigns .ascii r.text,
        ∃ b ∈ log.map Prod.snd ++ ((tickAll .ascii r st []).1 ++
          (ResultStreamer.flush .ascii r (tickAll .ascii r st []).2).1), call ∈ b.info.calls := by
  have hcheck : (twoWordSession.map fun s =>
      decide (['E', 'E', '5', 'E'] ∈ extractCallsigns .ascii s.after.result.text) &&
        (ResultStreamer.flush .ascii s.after.result (.init 0 [] [])).1.all fun b =>
          b.info.calls.isEmpty).toOption = some true := by decide +kernel
  cases hs : twoWordSession with
  | error e => simp [hs, Except.map, Except.toOption] at hcheck
  | ok s =>
      simp only [hs, Except.map, Except.toOption, Option.some.injEq, Bool.and_eq_true,
        decide_eq_true_eq, List.all_eq_true, List.isEmpty_iff] at hcheck
      obtain ⟨hcall, hempty⟩ := hcheck
      refine ⟨s.before, .init 0 [] [], [], s.after.result, s.after,
        .start 0 [] [] (Reached.session hs), session_finalize hs, ?_⟩
      intro hall
      obtain ⟨b, hb, hin⟩ := hall _ hcall
      rw [hempty b hb] at hin
      cases hin

theorem twoWordSession_calls_named_iff :
    ∃ s, twoWordSession = .ok s ∧
      ((∀ call ∈ extractCallsigns .ascii s.after.result.text,
        ∃ b ∈ ([] : List (Str × Batch ℚ)).map Prod.snd ++
          ((tickAll .ascii s.after.result (.init 0 [] []) []).1 ++
          (ResultStreamer.flush .ascii s.after.result
            (tickAll .ascii s.after.result (.init 0 [] []) []).2).1), call ∈ b.info.calls) ↔
      ∀ call ∈ extractCallsigns .ascii s.after.result.text,
        call ∈ extractCallsigns .ascii (beforeLastSpace s.after.result.text) ∨
          ∃ T b, (T, b) ∈ ([] : List (Str × Batch ℚ)) ∧ ' ' ∉ T ∧
            call ∈ extractCallsigns .ascii T) := by
  obtain ⟨s, hs⟩ := exists_eq_ok (x := twoWordSession) (by decide +kernel)
  exact ⟨s, hs, finalized_calls_named_iff
    (.start 0 [] [] (Reached.session hs)) (session_finalize hs) []⟩

end CWDecoder

end CwStation

/-! ## Words that are still being sent

Only what stands before the last blank is completed. A text without a blank is scanned whole,
though none of it is. -/

namespace CwStation.ResultStreamer

open Bridge CWDecoder
open Pattern (findall)

variable {F : Type} [PyFloat F] {u : Unicode}

/-- The completed words of a text. -/
def completedWords (text : Str) : Str := if ' ' ∈ text then beforeLastSpace text else []

/-- The tokens that have the shape of a callsign. -/
def callTokens (u : Unicode) (text : Str) : List Str := findall (callsignRe u) (u.upper text)

/-- With a blank in the text, what is scanned is completed. -/
theorem callTokens_completed {text call : Str} (hspace : ' ' ∈ text)
    (h : call ∈ extractCallsigns u (completed text)) : call ∈ callTokens u (beforeLastSpace text) := by
  obtain ⟨a, b, rfl, hb⟩ := exists_last_space hspace
  have hcall := calls_before_last_word List.prefix_rfl hspace h
  exact (mem_extractCallsigns.mp hcall).1

/-- A batch names calls of completed words only exactly when the text has a blank, or no token
that would pass for a call. -/
theorem chips_completed_iff {force : Bool} {r : DecodeResult F} {st : ResultStreamer F} {b : Batch F}
    (h : b ∈ (tick u force r st).1) :
    (∀ call ∈ b.info.calls, call ∈ callTokens u (completedWords r.text)) ↔
      ' ' ∈ r.text ∨ ∀ call ∈ callTokens u r.text, hasPlausiblePrefix u call = true →
        call.length < minUncorroboratedLen ∧ (callTokens u r.text).count call ≤ 1 ∧
          call ∉ findall (deCallRe u) (u.upper r.text) := by
  rw [tick_calls h]
  by_cases hspace : ' ' ∈ r.text
  · rw [completedWords, if_pos hspace]
    exact iff_of_true (fun call hcall => callTokens_completed hspace hcall) (.inl hspace)
  · have hnone : ∀ call, call ∉ callTokens u (completedWords r.text) := by
      intro call hcall
      rw [completedWords, if_neg hspace] at hcall
      cases hcall
    rw [completed_of_not_mem hspace]
    constructor
    · intro hall
      refine .inr fun call hcall hprefix => ?_
      have hnot : ¬Admitted u (u.upper r.text) call := fun hadmitted =>
        hnone call (hall call (mem_extractCallsigns.mpr hadmitted))
      rw [Admitted, not_and, not_and, not_or, not_or, not_le, not_lt] at hnot
      obtain ⟨hlen, hde, hcount⟩ := hnot hcall hprefix
      exact ⟨hlen, hcount, hde⟩
    · rintro (hyes | hall) call hcall
      · exact absurd hyes hspace
      · obtain ⟨htoken, hprefix, hcorroborated⟩ := mem_extractCallsigns.mp hcall
        obtain ⟨hlen, hcount, hde⟩ := hall call htoken hprefix
        rcases hcorroborated with hlong | hafter | htwice
        · exact absurd hlong (not_le.mpr hlen)
        · exact absurd hafter hde
        · exact absurd htwice (not_lt.mpr hcount)

/-- `K1AB` of a `K1ABC`, the first word of a stream. -/
def firstWord : DecodeResult ℚ where
  chars := [⟨['B'], [.dah, .dit, .dit, .dit], 0, 1 / 10, 20, 10, 1⟩]
  text := "K1AB".toList
  sampleRate := 8000
  toneHz := 600
  wpmFinal := 20

theorem firstWord_spawns : ∃ b ∈ (tick .ascii true firstWord (init 0 [] [])).1,
    ∃ call ∈ b.info.calls, call ∉ callTokens .ascii (completedWords firstWord.text) := by
  have hbatch := @tickAll_flush_ne_nil ℚ _ .ascii firstWord (init 0 [] []) [] (by decide)
  obtain ⟨b, hb⟩ := List.exists_mem_of_ne_nil _ hbatch
  have hcalls := tick_calls hb
  refine ⟨b, hb, "K1AB".toList, ?_, ?_⟩
  · rw [hcalls]
    decide +kernel
  · decide +kernel

theorem laterWord_waits :
    ∃ b ∈ (tick .ascii true { firstWord with text := "CQ DE W1A".toList } (init 0 [] [])).1,
      ∀ call ∈ b.info.calls, call ∈ callTokens .ascii (completedWords "CQ DE W1A".toList) := by
  have hbatch := @tickAll_flush_ne_nil ℚ _ .ascii
    { firstWord with text := "CQ DE W1A".toList } (init 0 [] []) [] (by decide)
  obtain ⟨b, hb⟩ := List.exists_mem_of_ne_nil _ hbatch
  exact ⟨b, hb, (chips_completed_iff hb).mpr (.inl (by decide))⟩

end CwStation.ResultStreamer
