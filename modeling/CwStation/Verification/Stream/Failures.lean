import CwStation.Verification.Stream.Coverage

/-! # Batches that are not sent

The cursors move before `send` is called. A batch that `send` raises on is behind them, and no
later batch has what was in it. -/

namespace CwStation.ResultStreamer

variable {F : Type} [PyFloat F] {u : Unicode} {r : DecodeResult F} {st : ResultStreamer F}
  {sent lost : List (Batch F)}

theorem trySend_false (u : Unicode) (force : Bool) (r : DecodeResult F) (st : ResultStreamer F) :
    (trySend u false force r st).1.delivered = (tick u force r st).1 ∧
      (trySend u false force r st).1.dropped = [] ∧
      (trySend u false force r st).2 = (tick u force r st).2 := by
  unfold trySend tick
  by_cases hwait : (!force && decide (streamTime r - st.lastFlush < st.intervalS)) = true
  · simp only [hwait, ite_true]
    exact ⟨rfl, rfl, trivial⟩
  · simp only [hwait, Bool.false_eq_true, ite_false]
    cases diff u r st with
    | none => exact ⟨rfl, rfl, rfl⟩
    | some found => exact ⟨rfl, rfl, rfl⟩

/-- One tick: nothing is taken, or what `_diff` takes is sent or lost. -/
theorem trySend_cases (u : Unicode) (raises force : Bool) (r : DecodeResult F)
    (st : ResultStreamer F) :
    ((trySend u raises force r st).1 = .nothing ∧ (trySend u raises force r st).2.chars = st.chars ∧
      (trySend u raises force r st).2.runs = st.runs ∧
      (trySend u raises force r st).2.env = st.env) ∨
    ∃ b st', diff u r st = some (b, st') ∧
      (trySend u raises force r st).1 = (if raises then .raised b else .sent b) ∧
      (trySend u raises force r st).2.chars = st'.chars ∧
      (trySend u raises force r st).2.runs = st'.runs ∧
      (trySend u raises force r st).2.env = st'.env := by
  unfold trySend
  by_cases hwait : (!force && decide (streamTime r - st.lastFlush < st.intervalS)) = true
  · simp only [hwait, ite_true]
    exact .inl ⟨trivial, trivial, trivial, trivial⟩
  · simp only [hwait, Bool.false_eq_true, ite_false]
    cases hdiff : diff u r st with
    | none => exact .inl ⟨rfl, rfl, rfl, rfl⟩
    | some found =>
      refine .inr ⟨found.1, found.2, rfl, ?_⟩
      cases raises <;> exact ⟨rfl, rfl, rfl, rfl⟩

/-- A result that grows while a streamer on it is ticked: the batches sent, and those that `send`
raised on. -/
inductive Tried (u : Unicode) :
    DecodeResult F → ResultStreamer F → List (Batch F) → List (Batch F) → Prop
  | start {r : DecodeResult F} (intervalS : F) (source feedId : Str) :
      r.envelopeT.length = r.envelopeMag.length → Tried u r (init intervalS source feedId) [] []
  | grow {r r' : DecodeResult F} {st : ResultStreamer F} {sent lost : List (Batch F)} :
      Tried u r st sent lost → r.Grows r' → Tried u r' st sent lost
  | tick {r : DecodeResult F} {st : ResultStreamer F} {sent lost : List (Batch F)}
      (raises force : Bool) : Tried u r st sent lost →
      Tried u r (trySend u raises force r st).2 (sent ++ (trySend u raises force r st).1.delivered)
        (lost ++ (trySend u raises force r st).1.dropped)

/-- What is in front of a cursor was sent or is lost. -/
structure Taken (r : DecodeResult F) (st : ResultStreamer F) (sent lost : List (Batch F)) :
    Prop where
  chars : (sent.flatMap Batch.chars).length + (lost.flatMap Batch.chars).length = st.chars
  runs : (sent.flatMap Batch.keyRuns).length + (lost.flatMap Batch.keyRuns).length = st.runs
  env : (sent.flatMap Batch.envT).length + (lost.flatMap Batch.envT).length = st.env
  charsLe : st.chars ≤ r.chars.length
  runsLe : st.runs ≤ r.keyRuns.length
  envLe : st.env ≤ r.envelopeT.length
  inhabited : ∀ b ∈ lost, b.chars ≠ [] ∨ b.keyRuns ≠ [] ∨ b.envT ≠ []

omit [PyFloat F] in
theorem Taken.grow {r' : DecodeResult F} (h : Taken r st sent lost) (hgrow : r.Grows r') :
    Taken r' st sent lost :=
  { h with
    charsLe := h.charsLe.trans hgrow.chars.length_le
    runsLe := h.runsLe.trans hgrow.keyRuns.length_le
    envLe := h.envLe.trans hgrow.envT.length_le }

omit [PyFloat F] in
/-- Whether a batch is sent or lost, it takes its list to the end. -/
theorem length_take {α : Type} {f : Batch F → List α} {l : List α} {b : Batch F} {n : ℕ}
    (h : (sent.flatMap f).length + (lost.flatMap f).length = n) (hn : n ≤ l.length)
    (hb : f b = l.drop n) {out : Sending F} (hout : out = .raised b ∨ out = .sent b) :
    ((sent ++ out.delivered).flatMap f).length + ((lost ++ out.dropped).flatMap f).length =
      l.length := by
  have hlen : (f b).length = l.length - n := by rw [hb, List.length_drop]
  rcases hout with rfl | rfl
  · simp only [Sending.delivered, Sending.dropped, List.append_nil, List.flatMap_append,
      List.flatMap_singleton, List.length_append]
    omega
  · simp only [Sending.delivered, Sending.dropped, List.append_nil, List.flatMap_append,
      List.flatMap_singleton, List.length_append]
    omega

theorem Taken.trySend (h : Taken r st sent lost) (raises force : Bool) :
    Taken r (trySend u raises force r st).2
      (sent ++ (trySend u raises force r st).1.delivered)
      (lost ++ (trySend u raises force r st).1.dropped) := by
  rcases trySend_cases u raises force r st with ⟨hout, hchars, hruns, henv⟩ |
    ⟨b, st', hdiff, hout, hchars, hruns, henv⟩
  · simp only [hout, Sending.delivered, Sending.dropped, List.append_nil]
    refine ⟨?_, ?_, ?_, ?_, ?_, ?_, h.inhabited⟩
    · rw [hchars, h.chars]
    · rw [hruns, h.runs]
    · rw [henv, h.env]
    · rw [hchars]
      exact h.charsLe
    · rw [hruns]
      exact h.runsLe
    · rw [henv]
      exact h.envLe
  · obtain ⟨rfl, rfl, hne⟩ := diff_eq_some hdiff
    have hsort : (ResultStreamer.trySend u raises force r st).1 =
          .raised ⟨r.chars.drop st.chars, r.keyRuns.drop st.runs, r.envelopeT.drop st.env,
            r.envelopeMag.drop st.env, batchMeta u r st⟩ ∨
        (ResultStreamer.trySend u raises force r st).1 =
          .sent ⟨r.chars.drop st.chars, r.keyRuns.drop st.runs, r.envelopeT.drop st.env,
            r.envelopeMag.drop st.env, batchMeta u r st⟩ := by
      rw [hout]
      cases raises
      · exact .inr rfl
      · exact .inl rfl
    constructor
    · rw [hchars]
      exact length_take h.chars h.charsLe rfl hsort
    · rw [hruns]
      exact length_take h.runs h.runsLe rfl hsort
    · rw [henv]
      exact length_take h.env h.envLe rfl hsort
    · exact hchars.le
    · exact hruns.le
    · exact henv.le
    · intro b hb
      rcases List.mem_append.mp hb with hb | hb
      · exact h.inhabited b hb
      · rw [hout] at hb
        cases raises with
        | false => cases hb
        | true =>
          rw [if_pos rfl, Sending.dropped, List.mem_singleton] at hb
          rw [hb]
          exact hne

theorem Tried.taken (h : Tried u r st sent lost) : Taken r st sent lost := by
  induction h with
  | start => exact ⟨rfl, rfl, rfl, Nat.zero_le _, Nat.zero_le _, Nat.zero_le _, by simp⟩
  | grow _ hgrow ih => exact ih.grow hgrow
  | tick raises force _ ih => exact ih.trySend raises force

/-- Where nothing is lost, `send` has not raised. -/
theorem Tried.watched (h : Tried u r st sent lost) (hlost : lost = []) : Watched u r st sent := by
  induction h with
  | start intervalS source feedId hpaired => exact .start intervalS source feedId hpaired
  | grow _ hgrow ih => exact (ih hlost).grow hgrow
  | @tick r st sent lost raises force _ ih =>
    obtain ⟨hnil, hdropped⟩ := List.append_eq_nil_iff.mp hlost
    have hsame : (trySend u raises force r st).1.delivered =
          (ResultStreamer.tick u force r st).1 ∧
        (trySend u raises force r st).2 = (ResultStreamer.tick u force r st).2 := by
      have hfalse := trySend_false u force r st
      cases raises with
      | false => exact ⟨hfalse.1, hfalse.2.2⟩
      | true =>
        revert hdropped
        unfold trySend ResultStreamer.tick
        by_cases hwait : (!force && decide (streamTime r - st.lastFlush < st.intervalS)) = true
        · simp only [hwait, ite_true]
          exact fun _ => ⟨rfl, trivial⟩
        · simp only [hwait, Bool.false_eq_true, ite_false]
          cases diff u r st with
          | none => exact fun _ => ⟨rfl, rfl⟩
          | some found => exact fun hdropped => by cases hdropped
    rw [hsame.1, hsame.2]
    exact (ih hnil).tick force

/-- After a flush that succeeds, the batches sent have everything of the result exactly when
`send` has raised on none. -/
theorem tried_flush_covers_iff (h : Tried u r st sent lost) :
    let all := sent ++ (flush u r st).1
    (all.flatMap Batch.chars = r.chars ∧ all.flatMap Batch.keyRuns = r.keyRuns ∧
      all.flatMap Batch.envT = r.envelopeT ∧ all.flatMap Batch.envMag = r.envelopeMag) ↔
    lost = [] := by
  constructor
  · rintro ⟨hchars, hruns, henv, -⟩
    have hflush : Taken r (flush u r st).2 (sent ++ (flush u r st).1) lost := by
      have hfalse := trySend_false u true r st
      have htaken := h.taken.trySend (u := u) false true
      rw [hfalse.1, hfalse.2.1, hfalse.2.2, List.append_nil] at htaken
      exact htaken
    have hc := hflush.chars
    have hr := hflush.runs
    have he := hflush.env
    rw [hchars] at hc
    rw [hruns] at hr
    rw [henv] at he
    have hcl := hflush.charsLe
    have hrl := hflush.runsLe
    have hel := hflush.envLe
    have hc0 : lost.flatMap Batch.chars = [] := List.eq_nil_of_length_eq_zero (by omega)
    have hr0 : lost.flatMap Batch.keyRuns = [] := List.eq_nil_of_length_eq_zero (by omega)
    have he0 : lost.flatMap Batch.envT = [] := List.eq_nil_of_length_eq_zero (by omega)
    rw [List.flatMap_eq_nil_iff] at hc0 hr0 he0
    rw [List.eq_nil_iff_forall_not_mem]
    intro b hb
    rcases hflush.inhabited b hb with hne | hne | hne
    · exact hne (hc0 b hb)
    · exact hne (hr0 b hb)
    · exact hne (he0 b hb)
  · intro hlost
    obtain ⟨hchars, hruns, henvT, henvMag, -⟩ := watched_flush_covers (h.watched hlost)
    exact ⟨hchars, hruns, henvT, henvMag⟩

/-- The first tick cannot send; the flush after it finds nothing new. -/
theorem smallResult_lost :
    ∃ st sent lost, Tried .ascii smallResult st sent lost ∧
      ((sent ++ (flush .ascii smallResult st).1).flatMap Batch.keyRuns ≠ smallResult.keyRuns) := by
  have hstart : Tried .ascii smallResult (init 0 [] []) [] [] := .start 0 [] [] rfl
  exact ⟨_, _, _, hstart.tick true false, by decide +kernel⟩

theorem smallResult_sent :
    ((trySend .ascii false false smallResult (init 0 [] [])).1.delivered ++
      (flush .ascii smallResult (trySend .ascii false false smallResult (init 0 [] [])).2).1).flatMap
        Batch.keyRuns = smallResult.keyRuns := by
  have hstart : Tried .ascii smallResult (init 0 [] []) [] [] := .start 0 [] [] rfl
  have hdropped := (trySend_false .ascii false smallResult (init 0 [] [])).2.1
  exact ((tried_flush_covers_iff (hstart.tick false false)).mpr hdropped).2.1

end CwStation.ResultStreamer
